import Arm64Baremetal.RegionCover
import Arm64Baremetal.SeeMmu

/-!
What SEEOS translates when its tables are not zero beforehand. see_alloc_table and
seeos_init_mmu_global clear the first 64 entries of a table; the others keep what they held.
-/

set_option autoImplicit false

namespace Arm64
open Runs

def SeeCall.gives : SeeCall → Nat → Word
  | .seeMapPage _ pa flags,_ => pa &&& ~~~0xFFF ||| flags ||| pteTypePage
  | .seeMapRegion vaStart paStart _ flags,p =>
      ((paStart &&& ~~~0xFFF) + BitVec.ofNat 64 (4096 * pageOffset (vaStart &&& ~~~0xFFF) p)) &&&
        ~~~0xFFF ||| flags ||| pteTypePage

def SeeCall.Covers (c : SeeCall) (p : Nat) : Prop := c.toMapCall.Covers () p

instance (c : SeeCall) (p : Nat) : Decidable (c.Covers p) :=
  inferInstanceAs (Decidable (c.toMapCall.Covers () p))

def lastSee (cs : List SeeCall) (p : Nat) : Option SeeCall :=
  cs.reverse.find? fun c => decide (c.Covers p)

/-- The table of the pool that mapping `va` takes for level 3. -/
def takesL3 (A : TableArea Unit) (m : Tables) (va : Word) : Option Nat :=
  let d := m.mem (A.root ()) (l1Idx va)
  if d &&& 1 = 0 then some (m.used + 1)
  else if m.mem (d &&& ~~~0xFFF) (l2Idx va) &&& 1 = 0 then some m.used else none

/-- The tables that mapping `va` takes hold no descriptor behind the entries that are cleared,
but for pages that the call goes on to map. -/
structure PageClean (A : TableArea Unit) (mine : Nat → Prop) (m : Tables) (va : Word) : Prop where
  l2 : m.mem (A.root ()) (l1Idx va) &&& 1 = 0 → ∀ a : Fin A.slots, a.val = m.used →
    ∀ j, 64 ≤ j.val → m.mem (A.table a) j &&& 1 = 0
  l3 : ∀ a : Fin A.slots, takesL3 A m va = some a.val → ∀ va', l1Idx va' = l1Idx va →
    l2Idx va' = l2Idx va → 64 ≤ (l3Idx va').val → ¬ mine (pageNumber va') →
      m.mem (A.table a) (l3Idx va') &&& 3 ≠ 3

def seeMapPages (A : TableArea Unit) (va pa flags : Word) (m : Tables) (n : Nat) : Tables :=
  (List.range n).foldl (fun m n =>
    let i := BitVec.ofNat 64 (4096 * n)
    seeMapPage A (A.root ()) (va + i) (pa + i) flags m) m

def CallClean (A : TableArea Unit) (m : Tables) (c : SeeCall) : Prop :=
  match c with
  | .seeMapPage va _ _ => PageClean A c.Covers m va
  | .seeMapRegion vaStart paStart size flags => ∀ n < pageTurns size,
      PageClean A c.Covers
        (seeMapPages A (vaStart &&& ~~~0xFFF) (paStart &&& ~~~0xFFF) flags m n)
        ((vaStart &&& ~~~0xFFF) + BitVec.ofNat 64 (4096 * n))

section Stale
variable {A : TableArea Unit} {m : Tables} {t : TableTree Unit A.slots} {i j : Fin 512}
  {b : Fin A.slots}

theorem seeEnsureTable_ranOut (table : Word) (i : Fin 512)
    (hr : (seeEnsureTable A table i m).ranOut = false) : m.ranOut = false := by
  unfold seeEnsureTable seeAllocTable at hr
  split at hr
  · split at hr
    · simp [Tables.store,Tables.put] at hr
    · exact hr
  · exact hr

theorem seeEnsureTable_of_invalid {p : Word} (he : m.mem p i &&& 1 = 0) :
    seeEnsureTable A p i m =
      (seeAllocTable A m).2.put p i ((seeAllocTable A m).1 ||| pteTypeTable) := by
  simp only [seeEnsureTable,Tables.load_zero,if_pos he,Tables.store_zero]

theorem seeEnsureTable_of_valid {p : Word} (he : m.mem p i &&& 1 ≠ 0) :
    seeEnsureTable A p i m = m := by
  simp only [seeEnsureTable,Tables.load_zero,if_neg he]

theorem Tree.seeAllocate (h : Tree A m t) (hr : (seeAllocTable A m).2.ranOut = false) :
    ∃ a m', seeAllocTable A m = (A.table a,m') ∧ Tree A m' t ∧ FreshTable t a ∧ a.val < m'.used ∧
      a.val = m.used ∧ m'.used = m.used + 1 ∧
      (∀ j, m'.mem (A.table a) j = if j.val < 64 then 0 else m.mem (A.table a) j) ∧
      (∀ b, b ≠ a → m'.mem (A.table b) = m.mem (A.table b)) := by
  unfold seeAllocTable at hr ⊢
  split at hr
  · simp at hr
  · rename_i hu
    have ha : m.used < A.slots := Nat.lt_of_not_le hu
    obtain ⟨htree,hfresh,hused,hmem,_,hother⟩ := h.take ha
      fun j => if j.val < 64 then 0 else m.mem (A.table ⟨m.used,ha⟩) j
    rw [if_neg hu]
    exact ⟨⟨m.used,ha⟩,_,rfl,htree,hfresh,hused,rfl,rfl,fun j => congrFun hmem j,hother⟩

/-- A new level 2 table without stale descriptors changes no leaf. -/
theorem Tree.seeEnsureL2 (h : Tree A m t) (i : Fin 512)
    (hclean : m.mem (A.root ()) i &&& 1 = 0 → ∀ a : Fin A.slots, a.val = m.used →
      ∀ j, 64 ≤ j.val → m.mem (A.table a) j &&& 1 = 0)
    (hr : (seeEnsureTable A (A.root ()) i m).ranOut = false) :
    let m' := seeEnsureTable A (A.root ()) i m
    ∃ t' a, Tree A m' t' ∧ t'.l2 () i = some a ∧
      (∀ r' i' j' k', leaf A m' t' r' i' j' k' = leaf A m t r' i' j' k') ∧
      (m.mem (A.root ()) i &&& 1 ≠ 0 ∧ m' = m ∨
        m.mem (A.root ()) i &&& 1 = 0 ∧ m'.used = m.used + 1 ∧
          ∀ b : Fin A.slots, b.val ≠ m.used → m'.mem (A.table b) = m.mem (A.table b)) := by
  intro m'
  by_cases he : m.mem (A.root ()) i &&& 1 = 0
  · have hm' : m' = _ := seeEnsureTable_of_invalid he
    have hr' : (seeAllocTable A m).2.ranOut = false := by
      rw [seeEnsureTable_of_invalid he] at hr
      exact hr
    obtain ⟨a,m₁,hm,h',hf,ha,hau,hused,hmem,hother⟩ := h.seeAllocate hr'
    have hi := (h.l1 () i).of_and he
    have hinvalid : ∀ j, m₁.mem (A.table a) j &&& 1 = 0 := by
      intro j
      rw [hmem]
      split
      · exact BitVec.zero_and
      · exact hclean he a hau j (by omega)
    rw [hm] at hm'
    refine ⟨t.setL2 () i a,a,hm' ▸ h'.linkL2 hi hf hinvalid ha,if_pos ⟨rfl,rfl⟩,
      fun r' i' j' k' => ?_,.inr ⟨he,?_,fun b hb => ?_⟩⟩
    · rw [hm']
      refine (Tree.linkL2_leaf t () i a _ r' i' j' k').trans (leaf_of_mem (fun c hc => ?_) k')
      refine hother c ?_
      rintro rfl
      exact hf.l3 r' i' j' hc
    · rw [hm']
      exact hused
    · have hne : b ≠ a := fun hba => hb (by rw [hba,hau])
      rw [hm',← hother b hne]
      exact Function.update_of_ne (A.root_ne_table () b).symm _ _
  · have hm' : m' = m := seeEnsureTable_of_valid he
    obtain ⟨a,ha,_⟩ := (h.l1 () i).of_valid he
    rw [hm']
    exact ⟨t,a,h,ha,fun _ _ _ _ => rfl,.inl ⟨he,rfl⟩⟩

/-- A new level 3 table changes the leaves only where stale descriptors are exempt. -/
theorem Tree.seeEnsureL3 (h : Tree A m t) (hb : t.l2 () i = some b) (j : Fin 512)
    (exempt : Fin 512 → Prop)
    (hclean : m.mem (A.table b) j &&& 1 = 0 → ∀ a : Fin A.slots, a.val = m.used →
      ∀ k, 64 ≤ k.val → ¬ exempt k → m.mem (A.table a) k &&& 3 ≠ 3)
    (hr : (seeEnsureTable A (A.table b) j m).ranOut = false) :
    let m' := seeEnsureTable A (A.table b) j m
    ∃ t' a, Tree A m' t' ∧ t'.l2 = t.l2 ∧ t'.l3 () i j = some a ∧
      ∀ r' i' j' k', (i' = i ∧ j' = j ∧ exempt k' ∧ leaf A m t r' i' j' k' = none) ∨
        leaf A m' t' r' i' j' k' = leaf A m t r' i' j' k' := by
  intro m'
  by_cases he : m.mem (A.table b) j &&& 1 = 0
  · have hm' : m' = _ := seeEnsureTable_of_invalid he
    have hr' : (seeAllocTable A m).2.ranOut = false := by
      rw [seeEnsureTable_of_invalid he] at hr
      exact hr
    obtain ⟨a,m₁,hm,h',hf,ha,hau,_,hmem,hother⟩ := h.seeAllocate hr'
    have hj := (h.l2 () i b hb j).of_and he
    rw [hm] at hm'
    refine ⟨t.setL3 () i j a,a,hm' ▸ h'.linkL3 hb hj hf ha,rfl,if_pos ⟨rfl,rfl,rfl⟩,
      fun r' i' j' k' => ?_⟩
    rw [hm',h'.linkL3_leaf hb hf]
    by_cases hri : r' = () ∧ i' = i ∧ j' = j
    · obtain ⟨rfl,rfl,rfl⟩ := hri
      have hnone : leaf A m t () i' j' k' = none := by rw [leaf,hj,Option.bind_none]
      rw [if_pos ⟨rfl,rfl,rfl⟩,hmem,hnone]
      by_cases hk : k'.val < 64
      · rw [if_pos hk]
        exact .inr (by decide)
      · rw [if_neg hk]
        by_cases hx : exempt k'
        · exact .inl ⟨rfl,rfl,hx,rfl⟩
        · exact .inr (if_neg (hclean he a hau k' (Nat.le_of_not_lt hk) hx))
    · rw [if_neg hri]
      refine .inr (leaf_of_mem (fun c hc => hother c ?_) k')
      rintro rfl
      exact hf.l3 r' i' j' hc
  · have hm' : m' = m := seeEnsureTable_of_valid he
    obtain ⟨a,ha,_⟩ := (h.l2 () i b hb j).of_valid he
    rw [hm']
    exact ⟨t,a,h,rfl,ha,fun _ _ _ _ => .inr rfl⟩

theorem exists_l3Idx (va : Word) (k : Fin 512) :
    ∃ va', l1Idx va' = l1Idx va ∧ l2Idx va' = l2Idx va ∧ l3Idx va' = k := by
  have hva := pageNumber_lt va
  have hk := k.isLt
  have hpage : pageNumber (BitVec.ofNat 64 ((pageNumber va / 512 * 512 + k.val) * 4096)) =
      pageNumber va / 512 * 512 + k.val := by
    rw [pageNumber,BitVec.toNat_ofNat]
    omega
  refine ⟨BitVec.ofNat 64 ((pageNumber va / 512 * 512 + k.val) * 4096),Fin.ext ?_,Fin.ext ?_,
    Fin.ext ?_⟩
  · rw [l1Idx_val,l1Idx_val,hpage]
    omega
  · rw [l2Idx_val,l2Idx_val,hpage]
    omega
  · rw [l3Idx_val,hpage]
    omega

/-- The table that is taken for level 3 is still clean when level 2 has got its own. -/
theorem PageClean.l3_afterL2 {mine : Nat → Prop} {va va' : Word} {m₁ : Tables} {a : Fin A.slots}
    (hclean : PageClean A mine m va)
    (hcase : m.mem (A.root ()) (l1Idx va) &&& 1 ≠ 0 ∧ m₁ = m ∨
      m.mem (A.root ()) (l1Idx va) &&& 1 = 0 ∧ m₁.used = m.used + 1 ∧
        ∀ b : Fin A.slots, b.val ≠ m.used → m₁.mem (A.table b) = m.mem (A.table b))
    (hnext : nextTable 0 (A.root ()) (l1Idx va) m₁ = A.table a)
    (he : m₁.mem (A.table a) (l2Idx va) &&& 1 = 0) (hb : b.val = m₁.used)
    (hi : l1Idx va' = l1Idx va) (hj : l2Idx va' = l2Idx va) (hk : 64 ≤ (l3Idx va').val)
    (hmine : ¬ mine (pageNumber va')) : m₁.mem (A.table b) (l3Idx va') &&& 3 ≠ 3 := by
  obtain ⟨hvalid,rfl⟩ | ⟨hinvalid,hused,hsame⟩ := hcase
  · have htab : m₁.mem (A.root ()) (l1Idx va) &&& ~~~0xFFF = A.table a := by
      rw [← hnext,nextTable,Tables.load_zero]
      exact (BitVec.add_zero _).symm
    refine hclean.l3 b ?_ va' hi hj hk hmine
    rw [takesL3,if_neg hvalid,htab,if_pos he,hb]
  · rw [hused] at hb
    rw [hsame b (by omega)]
    refine hclean.l3 b ?_ va' hi hj hk hmine
    rw [takesL3,if_pos hinvalid,hb]

theorem Tree.seeMapPage (h : Tree A m t) {mine : Nat → Prop} {va pa flags : Word}
    (hclean : PageClean A mine m va)
    (hr₁ : (seeEnsureTable A (A.root ()) (l1Idx va) m).ranOut = false)
    (hr₂ : ∀ a, nextTable 0 (A.root ()) (l1Idx va) (seeEnsureTable A (A.root ()) (l1Idx va) m) =
      A.table a → (seeEnsureTable A (A.table a) (l2Idx va)
        (seeEnsureTable A (A.root ()) (l1Idx va) m)).ranOut = false) :
    let m₁ := seeEnsureTable A (A.root ()) (l1Idx va) m
    ∃ t' a b, Tree A (Arm64.seeMapPage A (A.root ()) va pa flags m) t' ∧
      nextTable 0 (A.root ()) (l1Idx va) m₁ = A.table a ∧
      nextTable 0 (A.table a) (l2Idx va) (seeEnsureTable A (A.table a) (l2Idx va) m₁) =
        A.table b ∧
      ∀ va', (pageNumber va' ≠ pageNumber va ∧ mine (pageNumber va') ∧
          walk m.mem (A.root ()) va' = none) ∨
        walk (Arm64.seeMapPage A (A.root ()) va pa flags m).mem (A.root ()) va' =
          if pageNumber va' = pageNumber va then
            some (pa &&& ~~~0xFFF ||| flags ||| pteTypePage)
          else walk m.mem (A.root ()) va' := by
  intro m₁
  obtain ⟨t₁,a,h₁,ha,hleaf₁,hcase⟩ := h.seeEnsureL2 (l1Idx va) hclean.l2 hr₁
  have hl2 := h₁.nextL2 ha 0
  rw [root_add_zero,show A.table a + 0 = A.table a from BitVec.add_zero _] at hl2
  have hl2 : nextTable 0 (A.root ()) (l1Idx va) m₁ = A.table a := hl2
  replace hr₂ := hr₂ a hl2
  let exempt : Fin 512 → Prop := fun k => ∃ va', l1Idx va' = l1Idx va ∧ l2Idx va' = l2Idx va ∧
    l3Idx va' = k ∧ mine (pageNumber va')
  have hclean₃ : m₁.mem (A.table a) (l2Idx va) &&& 1 = 0 → ∀ b : Fin A.slots, b.val = m₁.used →
      ∀ k, 64 ≤ k.val → ¬ exempt k → m₁.mem (A.table b) k &&& 3 ≠ 3 := by
    intro he b hb k hk hx
    obtain ⟨va',hi,hj,rfl⟩ := exists_l3Idx va k
    have hmine : ¬ mine (pageNumber va') := fun hm => hx ⟨va',hi,hj,rfl,hm⟩
    exact hclean.l3_afterL2 hcase hl2 he hb hi hj hk hmine
  obtain ⟨t₂,b,h₂,hl2t,hb,hleaf₂⟩ := h₁.seeEnsureL3 ha (l2Idx va) exempt hclean₃ hr₂
  have hl3 := h₂.nextL3 (hl2t ▸ ha) hb 0
  rw [show A.table a + 0 = A.table a from BitVec.add_zero _,
    show A.table b + 0 = A.table b from BitVec.add_zero _] at hl3
  obtain ⟨h₃,hleaf₃⟩ := h₂.putLeaf hb (l3Idx va) (pa &&& ~~~0xFFF ||| flags ||| pteTypePage)
  have hm' : Arm64.seeMapPage A (A.root ()) va pa flags m =
      (seeEnsureTable A (A.table a) (l2Idx va) m₁).put (A.table b) (l3Idx va)
        (pa &&& ~~~0xFFF ||| flags ||| pteTypePage) := by
    unfold Arm64.seeMapPage
    dsimp only
    rw [hl2,hl3,Tables.store_zero]
  refine ⟨t₂,a,b,hm' ▸ h₃,hl2,hl3,fun va' => ?_⟩
  rw [hm',h₃.walk_eq,h.walk_eq,hleaf₃]
  simp only [true_and,index_eq_iff,leafOf_page]
  by_cases hp : pageNumber va' = pageNumber va
  · rw [if_pos hp,if_pos hp]
    exact .inr rfl
  · rw [if_neg hp,if_neg hp]
    obtain ⟨h1,h2,hx,hnone⟩ | hsame := hleaf₂ () (l1Idx va') (l2Idx va') (l3Idx va')
    · obtain ⟨v,hv1,hv2,hv3,hmine⟩ := hx
      have hv := (index_eq_iff v va').mp ⟨hv1.trans h1.symm,hv2.trans h2.symm,hv3⟩
      exact .inl ⟨hp,hv ▸ hmine,(hleaf₁ () _ _ _).symm.trans hnone⟩
    · exact .inr (hsame.trans (hleaf₁ () _ _ _))

/-- Entries of level 1 from 64 on are never cleared, and belong to no 32-bit address. -/
def lowRoot (A : TableArea Unit) (m : Tables) : Tables :=
  { m with mem := Function.update m.mem (A.root ()) fun i =>
      if i.val < 64 then m.mem (A.root ()) i else 0 }

theorem l1Idx_lt (va : Word) : (l1Idx va).val < 64 := by
  have := pageNumber_lt va
  rw [l1Idx_val]
  omega

section LowRoot
variable {p : Word}

theorem lowRoot_mem (hp : p = A.root () → i.val < 64) : (lowRoot A m).mem p i = m.mem p i := by
  by_cases h : p = A.root ()
  · subst h
    simp only [lowRoot,Function.update_self,if_pos (hp rfl)]
  · simp only [lowRoot,Function.update_of_ne h]

theorem lowRoot_table (a : Fin A.slots) : (lowRoot A m).mem (A.table a) = m.mem (A.table a) :=
  Function.update_of_ne (A.root_ne_table () a).symm _ _

theorem lowRoot_put (hp : p = A.root () → i.val < 64) (val : Word) :
    (lowRoot A m).put p i val = lowRoot A (m.put p i val) := by
  have hmem : ((lowRoot A m).put p i val).mem = (lowRoot A (m.put p i val)).mem := by
    funext q j
    by_cases hq : q = A.root ()
    · subst hq
      simp only [Tables.put_mem,lowRoot,Function.update_self]
      by_cases hj : A.root () = p ∧ j = i
      · rw [if_pos hj,if_pos hj,if_pos (by rw [hj.2]; exact hp hj.1.symm)]
      · rw [if_neg hj,if_neg hj]
    · simp only [Tables.put_mem,lowRoot,Function.update_of_ne hq]
  exact congrArg (fun mem => (⟨mem,m.used,m.ranOut⟩ : Tables)) hmem

theorem lowRoot_alloc : seeAllocTable A (lowRoot A m) =
    ((seeAllocTable A m).1,lowRoot A (seeAllocTable A m).2) := by
  unfold seeAllocTable
  by_cases hu : A.slots ≤ m.used
  · rw [if_pos hu,if_pos (show A.slots ≤ (lowRoot A m).used from hu)]
    rfl
  · have hne : A.root () ≠ A.pool + BitVec.ofNat 64 (4096 * m.used) :=
      A.rootApart () ⟨m.used,Nat.lt_of_not_le hu⟩
    rw [if_neg hu,if_neg (show ¬ A.slots ≤ (lowRoot A m).used from hu)]
    simp only [memZeroTable,lowRoot,Function.update_of_ne hne.symm,Function.update_of_ne hne]
    rw [Function.update_comm hne.symm]

theorem lowRoot_ensure (hp : p = A.root () → i.val < 64) :
    seeEnsureTable A p i (lowRoot A m) = lowRoot A (seeEnsureTable A p i m) := by
  unfold seeEnsureTable
  rw [Tables.load_zero,Tables.load_zero,lowRoot_mem hp,lowRoot_alloc]
  split
  · dsimp only
    rw [Tables.store_zero,Tables.store_zero,lowRoot_put hp]
  · rfl

theorem lowRoot_next (hp : p = A.root () → i.val < 64) :
    nextTable 0 p i (lowRoot A m) = nextTable 0 p i m := by
  rw [nextTable,nextTable,Tables.load_zero,Tables.load_zero,lowRoot_mem hp]

theorem lowRoot_walk (h : Tree A (lowRoot A m) t) (va : Word) :
    walk (lowRoot A m).mem (A.root ()) va = walk m.mem (A.root ()) va := by
  have hroot : (lowRoot A m).mem (A.root ()) (l1Idx va) = m.mem (A.root ()) (l1Idx va) :=
    lowRoot_mem fun _ => l1Idx_lt va
  have h1 := h.l1 () (l1Idx va)
  cases ha : t.l2 () (l1Idx va) with
  | none =>
    rw [ha] at h1
    have hinvalid := type_of_invalid h1
    have hinvalid' := hinvalid
    rw [hroot] at hinvalid'
    rw [walk,walk,if_neg hinvalid.1,if_neg hinvalid.2,if_neg hinvalid'.1,if_neg hinvalid'.2]
  | some a =>
    rw [ha] at h1
    have h2 := h.l2 () _ a ha (l2Idx va)
    rw [lowRoot_table] at h2
    have hd : m.mem (A.root ()) (l1Idx va) = A.entry a := hroot ▸ h1.1
    simp only [walk,h1.1,hd,A.entry_type,A.descAddr_entry,if_true,lowRoot_table]
    cases hb : t.l3 () (l1Idx va) (l2Idx va) with
    | none =>
      rw [hb] at h2
      have hinvalid := type_of_invalid h2
      rw [if_neg hinvalid.1,if_neg hinvalid.1]
    | some b =>
      rw [hb] at h2
      rw [h2.1,A.descAddr_entry,lowRoot_table]

theorem takesL3_lowRoot (h : Tree A (lowRoot A m) t) (va : Word) :
    takesL3 A (lowRoot A m) va = takesL3 A m va := by
  have hroot : (lowRoot A m).mem (A.root ()) (l1Idx va) = m.mem (A.root ()) (l1Idx va) :=
    lowRoot_mem fun _ => l1Idx_lt va
  unfold takesL3
  rw [hroot]
  by_cases he : m.mem (A.root ()) (l1Idx va) &&& 1 = 0
  · rw [if_pos he,if_pos he]
    rfl
  · obtain ⟨a,_,hd⟩ := (h.l1 () (l1Idx va)).of_valid (hroot.symm ▸ he)
    rw [hroot] at hd
    rw [if_neg he,if_neg he,hd,A.entry_mask,lowRoot_table]
    rfl

theorem PageClean.lowRoot {mine : Nat → Prop} {va : Word} (h : Tree A (lowRoot A m) t)
    (hclean : PageClean A mine m va) : PageClean A mine (Arm64.lowRoot A m) va := by
  refine ⟨fun he a ha j hj => ?_,fun a ha va' hi hj hk hmine => ?_⟩
  · rw [lowRoot_mem fun _ => l1Idx_lt va] at he
    rw [lowRoot_table]
    exact hclean.l2 he a ha j hj
  · rw [takesL3_lowRoot h] at ha
    rw [lowRoot_table]
    exact hclean.l3 a ha va' hi hj hk hmine

end LowRoot

theorem seeMapPage_walk (h : ∃ t, Tree A (lowRoot A m) t) {mine : Nat → Prop} {va pa flags : Word}
    (hclean : PageClean A mine m va)
    (hr : (seeMapPage A (A.root ()) va pa flags m).ranOut = false) :
    let m' := seeMapPage A (A.root ()) va pa flags m
    (∃ t, Tree A (lowRoot A m') t) ∧ ∀ va',
      (pageNumber va' ≠ pageNumber va ∧ mine (pageNumber va') ∧
        walk m.mem (A.root ()) va' = none) ∨ walk m'.mem (A.root ()) va' =
        if pageNumber va' = pageNumber va then some (pa &&& ~~~0xFFF ||| flags ||| pteTypePage)
        else walk m.mem (A.root ()) va' := by
  intro m'
  obtain ⟨t,ht⟩ := h
  have hlow : ∀ q, q = A.root () → (l1Idx va).val < 64 := fun _ _ => l1Idx_lt va
  have htab : ∀ (a : Fin A.slots) (i : Fin 512), A.table a = A.root () → i.val < 64 :=
    fun a _ ha => absurd ha.symm (A.root_ne_table () a)
  have hr₂ : (seeEnsureTable A (nextTable 0 (A.root ()) (l1Idx va)
      (seeEnsureTable A (A.root ()) (l1Idx va) m)) (l2Idx va)
        (seeEnsureTable A (A.root ()) (l1Idx va) m)).ranOut = false := hr
  have hr₁ : (seeEnsureTable A (A.root ()) (l1Idx va) m).ranOut = false :=
    seeEnsureTable_ranOut _ _ hr₂
  obtain ⟨t',a,b,ht',hl2,hl3,hwalk⟩ := @Tree.seeMapPage A (lowRoot A m) t ht mine va pa flags
    (hclean.lowRoot ht)
    (by rw [lowRoot_ensure (hlow _)]; exact hr₁)
    (fun a ha => by
      rw [lowRoot_ensure (hlow _),lowRoot_next (hlow _)] at ha
      rw [lowRoot_ensure (hlow _),lowRoot_ensure (htab a _),← ha]
      exact hr₂)
  -- the stores are not to the entries of level 1 that were left out
  have hm' : seeMapPage A (A.root ()) va pa flags (lowRoot A m) = lowRoot A m' := by
    rw [lowRoot_ensure (hlow _)] at hl2 hl3
    rw [lowRoot_ensure (htab a _)] at hl3
    have hl2' := (lowRoot_next (hlow _)).symm.trans hl2
    have hl3' := (lowRoot_next (htab a _)).symm.trans hl3
    unfold m' seeMapPage
    dsimp only
    rw [lowRoot_ensure (hlow _),hl2,hl2',lowRoot_ensure (htab a _),hl3,hl3',Tables.store_zero,
      Tables.store_zero,lowRoot_put (htab b _)]
  rw [hm'] at ht' hwalk
  refine ⟨⟨t',ht'⟩,fun va' => ?_⟩
  have hva := hwalk va'
  rwa [lowRoot_walk ht',lowRoot_walk ht] at hva

theorem seeMapPage_ranOut {va pa flags : Word}
    (hr : (seeMapPage A (A.root ()) va pa flags m).ranOut = false) : m.ranOut = false :=
  seeEnsureTable_ranOut (A.root ()) (l1Idx va) (seeEnsureTable_ranOut _ (l2Idx va) hr)

theorem seeMapPages_succ (A : TableArea Unit) (va pa flags : Word) (m : Tables) (n : Nat) :
    seeMapPages A va pa flags m (n + 1) = seeMapPage A (A.root ())
      (va + BitVec.ofNat 64 (4096 * n)) (pa + BitVec.ofNat 64 (4096 * n)) flags
        (seeMapPages A va pa flags m n) := by
  simp only [seeMapPages,List.range_succ,List.foldl_append,List.foldl_cons,List.foldl_nil]

theorem seeMapPages_ranOut {va pa flags : Word} {n k : Nat}
    (hr : (seeMapPages A va pa flags m (n + k)).ranOut = false) :
    (seeMapPages A va pa flags m n).ranOut = false := by
  induction k with
  | zero => exact hr
  | succ k ih =>
    rw [← Nat.add_assoc,seeMapPages_succ] at hr
    exact ih (seeMapPage_ranOut hr)

theorem seeMapPages_walk (h : ∃ t, Tree A (lowRoot A m) t) {mine : Nat → Prop} {va pa flags : Word}
    {n : Nat} (hn : n ≤ 2 ^ 20)
    (hclean : ∀ l < n, PageClean A mine (seeMapPages A va pa flags m l)
      (va + BitVec.ofNat 64 (4096 * l)))
    (hr : (seeMapPages A va pa flags m n).ranOut = false) :
    let m' := seeMapPages A va pa flags m n
    (∃ t, Tree A (lowRoot A m') t) ∧
      ∀ va', n ≤ pageOffset va (pageNumber va') ∧ mine (pageNumber va') ∨
        walk m'.mem (A.root ()) va' =
          if pageOffset va (pageNumber va') < n then
            some ((pa + BitVec.ofNat 64 (4096 * pageOffset va (pageNumber va'))) &&& ~~~0xFFF |||
              flags ||| pteTypePage)
          else walk m.mem (A.root ()) va' := by
  induction n with
  | zero =>
    refine ⟨h,fun va' => .inr ?_⟩
    rw [if_neg (Nat.not_lt_zero _)]
    rfl
  | succ n ih =>
    intro m'
    have hsucc : m' = _ := seeMapPages_succ A va pa flags m n
    rw [seeMapPages_succ] at hr
    obtain ⟨hok,hwalk⟩ := ih (by omega) (fun l hl => hclean l (Nat.lt_succ_of_lt hl))
      (seeMapPage_ranOut hr)
    obtain ⟨hok',hwalk'⟩ := seeMapPage_walk hok (hclean n (Nat.lt_succ_self n)) hr
    rw [hsucc]
    refine ⟨hok',fun va' => ?_⟩
    have hpage := @pageNumber_add_iff va va' n (by omega)
    obtain ⟨hne,hmine,hnone⟩ | heq := hwalk' va'
    · rw [ne_eq,hpage] at hne
      refine .inl ⟨?_,hmine⟩
      by_contra hlt
      -- a page that was mapped before is not in a new table
      obtain ⟨hle,_⟩ | hbefore := hwalk va'
      · omega
      · rw [hnone,if_pos (by omega)] at hbefore
        exact absurd hbefore nofun
    · rw [heq]
      by_cases hv : pageOffset va (pageNumber va') = n
      · rw [if_pos (hpage.mpr hv),if_pos (by omega),hv]
        exact .inr rfl
      · rw [if_neg fun he => hv (hpage.mp he)]
        obtain ⟨hle,hmine⟩ | hbefore := hwalk va'
        · exact .inl ⟨by omega,hmine⟩
        · rw [hbefore]
          exact .inr (if_congr (by omega) rfl rfl)

theorem seeMapPages_lt (h : ∃ t, Tree A (lowRoot A m) t) (hslots : A.slots ≤ 64)
    {mine : Nat → Prop} {va pa flags : Word} {n : Nat}
    (hclean : ∀ l < n, PageClean A mine (seeMapPages A va pa flags m l)
      (va + BitVec.ofNat 64 (4096 * l)))
    (hr : (seeMapPages A va pa flags m n).ranOut = false) : n < 2 ^ 19 := by
  by_contra hn
  obtain ⟨k,rfl⟩ := Nat.exists_eq_add_of_le (Nat.le_of_not_lt hn)
  obtain ⟨⟨t,ht⟩,hwalk⟩ := seeMapPages_walk h (by decide)
    (fun l hl => hclean l (Nat.lt_add_right k hl)) (seeMapPages_ranOut hr)
  have hblocks := @blocks_le_slots _ A _ ⟨t,ht⟩ () va 1024 (by decide) fun b hb => by
    have hself := (@pageNumber_add_iff va _ (512 * b) (by omega)).mp rfl
    rw [lowRoot_walk ht]
    obtain ⟨hle,_⟩ | heq := hwalk (va + BitVec.ofNat 64 (4096 * (512 * b)))
    · omega
    · rw [heq,if_pos (by omega)]
      exact Option.some_ne_none _
  omega

end Stale

/-- The tables are in order, and the walk reads the descriptors `f` of the pages. -/
structure SeeMaps (A : TableArea Unit) (m : Tables) (f : Nat → Option Word) : Prop where
  tree : ∃ t, Tree A (lowRoot A m) t
  walks : ∀ va, walk m.mem (A.root ()) va = f (pageNumber va)

section Calls
variable {A : TableArea Unit} {m : Tables} {f : Nat → Option Word}

theorem seeCall_ranOut {c : SeeCall} (hr : (seeCall A m c).ranOut = false) : m.ranOut = false := by
  cases c with
  | seeMapPage va pa flags => exact seeMapPage_ranOut hr
  | seeMapRegion vaStart paStart size flags =>
    have hr' : (seeMapPages A (vaStart &&& ~~~0xFFF) (paStart &&& ~~~0xFFF) flags m
      (0 + pageTurns size)).ranOut = false := by rw [Nat.zero_add]; exact hr
    exact seeMapPages_ranOut hr'

theorem seeCall_maps (h : SeeMaps A m f) (hslots : A.slots ≤ 64) {c : SeeCall}
    (hclean : CallClean A m c) (hr : (seeCall A m c).ranOut = false) :
    SeeMaps A (seeCall A m c) fun p => if c.Covers p then some (c.gives p) else f p := by
  cases c with
  | seeMapPage va pa flags =>
    obtain ⟨htree,hwalk⟩ := seeMapPage_walk h.tree hclean hr
    refine ⟨htree,fun va' => ?_⟩
    have hcovers : ∀ p, SeeCall.Covers (.seeMapPage va pa flags) p ↔ p = pageNumber va := fun _ =>
      ⟨fun h => h.2,fun h => ⟨rfl,h⟩⟩
    obtain ⟨hne,hmine,_⟩ | heq := hwalk va'
    · exact absurd ((hcovers _).mp hmine) hne
    · exact heq.trans (if_congr (hcovers _).symm rfl (h.walks va'))
  | seeMapRegion vaStart paStart size flags =>
    have hlt := seeMapPages_lt h.tree hslots hclean hr
    obtain ⟨htree,hwalk⟩ := seeMapPages_walk h.tree (by omega) hclean hr
    refine ⟨htree,fun va' => ?_⟩
    have hcovers : ∀ p, SeeCall.Covers (.seeMapRegion vaStart paStart size flags) p ↔
        pageOffset (vaStart &&& ~~~0xFFF) p < pageTurns size := fun _ =>
      ⟨fun h => h.2,fun h => ⟨rfl,h⟩⟩
    obtain ⟨hle,hmine⟩ | heq := hwalk va'
    · exact absurd ((hcovers _).mp hmine) (Nat.not_lt.mpr hle)
    · exact heq.trans (if_congr (hcovers _).symm rfl (h.walks va'))

theorem lastSee_snoc (cs : List SeeCall) (c : SeeCall) (p : Nat) :
    lastSee (cs ++ [c]) p = if c.Covers p then some c else lastSee cs p := by
  rw [lastSee,List.reverse_concat,List.find?_cons]
  by_cases hc : c.Covers p
  · simp [hc]
  · simp [hc,lastSee]

theorem seeMaps_start (A : TableArea Unit) (m : Tables) :
    SeeMaps A (memZeroTable (A.root ()) m) fun _ => none := by
  have hzero : ∀ i, (lowRoot A (memZeroTable (A.root ()) m)).mem (A.root ()) i = 0 := by
    intro i
    simp only [lowRoot,memZeroTable,Function.update_self]
    split <;> rfl
  obtain ⟨t,ht⟩ := @tablesOk_of_zero Unit A _ fun _ i => hzero i
  exact ⟨⟨t,ht⟩,fun va => (lowRoot_walk ht va).symm.trans (walk_of_zero hzero va)⟩

end Calls

/-- As long as the tables that are handed out hold no descriptors behind their first 64 entries,
SEEOS translates an address only as the last call for its page asked. -/
theorem see_tables_clean (A : TableArea Unit) (hslots : A.slots = 64) (m : Tables)
    (cs : List SeeCall) (hclean : Along (seeCall A) (CallClean A) (memZeroTable (A.root ()) m) cs)
    (hr : (exec (seeCall A) (memZeroTable (A.root ()) m) cs).ranOut = false) (va : Word) :
    walk (exec (seeCall A) (memZeroTable (A.root ()) m) cs).mem (A.root ()) va =
      (lastSee cs (pageNumber va)).map (·.gives (pageNumber va)) := by
  have hmaps := exec_history
    (I := fun cs s => s.ranOut = false → SeeMaps A s fun p => (lastSee cs p).map (·.gives p))
    (fun _ => seeMaps_start A m)
    (fun pre c ih hc hr => by
      have hkept := seeCall_maps (ih (seeCall_ranOut hr)) (Nat.le_of_eq hslots) hc hr
      refine ⟨hkept.tree,fun va => (hkept.walks va).trans ?_⟩
      rw [lastSee_snoc]
      split <;> rfl) hclean hr
  exact hmaps.walks va

def testSeeArea : TableArea Unit where
  root _ := 0x0E110000
  pool := 0x0E111000
  slots := 64
  poolPage := by decide
  poolLow := by decide
  rootApart := by rintro ⟨⟩; decide
  rootInj _ _ _ := rfl

/-- Tables that hold nothing but one old descriptor in entry 100 of page_tables[1]. -/
def staleTables : Tables where
  mem p i := if p = 0x0E112000 ∧ i = 100 then 0x80000403 else 0
  used := 0
  ranOut := false

def dirtyTables : Tables where
  mem _ i := if i.val < 64 then 0x80000403 else 0
  used := 0
  ranOut := false

theorem see_tables_clean_page :
    let cs := [SeeCall.seeMapPage smemBuffer smemBuffer protNormalNc]
    let m := exec (seeCall testSeeArea) (memZeroTable (testSeeArea.root ()) dirtyTables) cs
    walk m.mem (testSeeArea.root ()) smemBuffer = some 0x4080070F ∧
      walk m.mem (testSeeArea.root ()) 0x40801000 = none := by
  intro cs m
  have hrest : ∀ (a : Fin testSeeArea.slots) (j : Fin 512), 64 ≤ j.val →
      (memZeroTable (testSeeArea.root ()) dirtyTables).mem (testSeeArea.table a) j = 0 := by
    intro a j hj
    have hne := (testSeeArea.root_ne_table () a).symm
    simp only [memZeroTable,Function.update_of_ne hne]
    exact if_neg (Nat.not_lt.mpr hj)
  have hclean : Along (seeCall testSeeArea) (CallClean testSeeArea)
      (memZeroTable (testSeeArea.root ()) dirtyTables) cs := by
    refine ⟨⟨fun _ a _ j hj => ?_,fun a _ va' _ _ hk _ => ?_⟩,trivial⟩
    · rw [hrest a j hj]
      decide
    · rw [hrest a _ hk]
      decide
  have hwalk := see_tables_clean testSeeArea rfl dirtyTables cs hclean (by decide +kernel)
  exact ⟨(hwalk _).trans (by decide),(hwalk _).trans (by decide)⟩

/-- An old descriptor in a table that is handed out is a mapping that no call made. -/
theorem see_tables_stale :
    let cs := [SeeCall.seeMapPage 0x40800000 0x40800000 protNormalNc]
    let m := exec (seeCall testSeeArea) (memZeroTable (testSeeArea.root ()) staleTables) cs
    m.ranOut = false ∧ lastSee cs (pageNumber 0x40864000) = none ∧
      walk m.mem (testSeeArea.root ()) 0x40864000 = some 0x80000403 := by
  decide +kernel

end Arm64

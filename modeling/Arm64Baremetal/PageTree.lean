import Arm64Baremetal.KernelMmu
import Mathlib.Data.Fintype.Basic
import Mathlib.Data.Nat.Bits

/-!
The tables below a set of roots as a forest: every table of the pool that is in use has
one entry that points to it. A page of an address space is then one entry of one table.
-/

set_option autoImplicit false

namespace Arm64

theorem or_and_mask {w f mask : Word} (hw : w &&& mask = w) (hf : f &&& mask = 0) :
    (w ||| f) &&& mask = w := by
  apply BitVec.eq_of_getLsbD_eq
  intro i _
  have h1 := congrArg (·.getLsbD i) hw
  have h2 := congrArg (·.getLsbD i) hf
  simp only [BitVec.getLsbD_and,BitVec.getLsbD_or] at *
  grind

theorem and_low_of_page {w : Word} (h : w.toNat % 4096 = 0) : w &&& 0xFFF = 0 := by
  apply BitVec.eq_of_toNat_eq
  rw [BitVec.toNat_and]
  exact (Nat.and_two_pow_sub_one_eq_mod w.toNat 12).trans h

theorem and_not_low_of_page {w : Word} (h : w.toNat % 4096 = 0) : w &&& ~~~0xFFF = w := by
  have h0 := and_low_of_page h
  apply BitVec.eq_of_getLsbD_eq
  intro i _
  have h1 := congrArg (·.getLsbD i) h0
  simp only [BitVec.getLsbD_and,BitVec.getLsbD_not] at *
  grind

theorem and_48_of_lt {w : Word} (hw : w.toNat < 2 ^ 48) : w &&& 0xFFFFFFFFFFFF = w := by
  apply BitVec.eq_of_toNat_eq
  rw [BitVec.toNat_and]
  exact (Nat.and_two_pow_sub_one_eq_mod w.toNat 48).trans (Nat.mod_eq_of_lt hw)

theorem descAddr_of_page {w : Word} (h : w.toNat % 4096 = 0) (hw : w.toNat < 2 ^ 48) :
    descAddr w = w := by
  have hlow := and_48_of_lt hw
  have hmask : (0x0000FFFFFFFFF000 : Word) = 0xFFFFFFFFFFFF &&& ~~~0xFFF := by decide
  rw [descAddr,hmask,← BitVec.and_assoc,hlow,and_not_low_of_page h]

theorem descAddr_or {w f : Word} (h : w.toNat % 4096 = 0) (hw : w.toNat < 2 ^ 48)
    (hf : descAddr f = 0) : descAddr (w ||| f) = w :=
  or_and_mask (descAddr_of_page h hw) hf

theorem and_or_low {w f mask : Word} (h : w &&& mask = 0) : (w ||| f) &&& mask = f &&& mask := by
  apply BitVec.eq_of_getLsbD_eq
  intro i _
  have h1 := congrArg (·.getLsbD i) h
  simp only [BitVec.getLsbD_and,BitVec.getLsbD_or] at *
  grind

theorem and_low_mask {w mask : Word} (h : w.toNat % 4096 = 0) (hm : mask &&& 0xFFF = mask) :
    w &&& mask = 0 := by
  rw [← hm,BitVec.and_comm mask,← BitVec.and_assoc,and_low_of_page h]
  exact BitVec.zero_and

theorem and_high_mask {w mask : Word} (hw : w.toNat < 2 ^ 48) (hm : 0xFFFFFFFFFFFF &&& mask = 0) :
    w &&& mask = 0 := by
  rw [← and_48_of_lt hw,BitVec.and_assoc,hm]
  exact BitVec.and_zero

variable {ρ : Type} {A : TableArea ρ} {m : Tables}

namespace TableArea

def table (A : TableArea ρ) (a : Fin A.slots) : Word := A.pool + BitVec.ofNat 64 (4096 * a.val)

theorem table_toNat (A : TableArea ρ) (a : Fin A.slots) :
    (A.table a).toNat = A.pool.toNat + 4096 * a.val := by
  have := A.poolLow
  have := a.isLt
  rw [table,BitVec.toNat_add,BitVec.toNat_ofNat]
  omega

theorem table_page (A : TableArea ρ) (a : Fin A.slots) : (A.table a).toNat % 4096 = 0 := by
  have := A.poolPage
  have := A.table_toNat a
  omega

theorem table_inj {a b : Fin A.slots} (h : A.table a = A.table b) : a = b := by
  have ha := A.table_toNat a
  have hb := A.table_toNat b
  rw [h] at ha
  exact Fin.ext (by omega)

theorem root_ne_table (A : TableArea ρ) (r : ρ) (a : Fin A.slots) : A.root r ≠ A.table a :=
  A.rootApart r a

def entry (A : TableArea ρ) (a : Fin A.slots) : Word := A.table a ||| pteTypeTable

theorem entry_mask (A : TableArea ρ) (a : Fin A.slots) : A.entry a &&& ~~~0xFFF = A.table a :=
  or_and_mask (and_not_low_of_page (A.table_page a)) (by decide)

theorem descAddr_entry (A : TableArea ρ) (a : Fin A.slots) : descAddr (A.entry a) = A.table a := by
  refine descAddr_or (A.table_page a) ?_ (by decide)
  have := A.poolLow
  have := A.table_toNat a
  omega

theorem entry_type (A : TableArea ρ) (a : Fin A.slots) : A.entry a &&& 3 = 3 :=
  and_or_low (and_low_mask (A.table_page a) (by decide))

theorem entry_valid (A : TableArea ρ) (a : Fin A.slots) : A.entry a &&& 1 = 1 :=
  and_or_low (and_low_mask (A.table_page a) (by decide))

end TableArea

/-- Which table of the pool each entry of a root and of a level 2 table points to. -/
structure TableTree (ρ : Type) (slots : Nat) where
  l2 : ρ → Fin 512 → Option (Fin slots)
  l3 : ρ → Fin 512 → Fin 512 → Option (Fin slots)

/-- The entry `e` is invalid, or points to a table that was taken from the pool. -/
def Points (A : TableArea ρ) (used : Nat) (e : Word) : Option (Fin A.slots) → Prop
  | none => e &&& 1 = 0
  | some a => e = A.entry a ∧ a.val < used

structure Tree (A : TableArea ρ) (m : Tables) (t : TableTree ρ A.slots) : Prop where
  l1 : ∀ r i, Points A m.used (m.mem (A.root r) i) (t.l2 r i)
  l2 : ∀ r i a, t.l2 r i = some a → ∀ j, Points A m.used (m.mem (A.table a) j) (t.l3 r i j)
  top : ∀ r i j, t.l2 r i = none → t.l3 r i j = none
  inj2 : ∀ r i r' i' a, t.l2 r i = some a → t.l2 r' i' = some a → r = r' ∧ i = i'
  inj3 : ∀ r i j r' i' j' a, t.l3 r i j = some a → t.l3 r' i' j' = some a →
    r = r' ∧ i = i' ∧ j = j'
  apart : ∀ r i r' i' j a, t.l2 r i = some a → t.l3 r' i' j ≠ some a
  used3 : ∀ r i j a, t.l3 r i j = some a → a.val < m.used

def leaf (A : TableArea ρ) (m : Tables) (t : TableTree ρ A.slots) (r : ρ) (i j k : Fin 512) :
    Option Word :=
  (t.l3 r i j).bind fun a => leafOf (m.mem (A.table a) k)

variable {t : TableTree ρ A.slots} {r : ρ} {i j : Fin 512} {a b : Fin A.slots}

theorem Points.mono {used used' : Nat} {e : Word} {o : Option (Fin A.slots)} (hu : used ≤ used')
    (h : Points A used e o) : Points A used' e o := by
  cases o with
  | none => exact h
  | some a => exact ⟨h.1,Nat.lt_of_lt_of_le h.2 hu⟩

theorem Points.of_and {used : Nat} {e : Word} {o : Option (Fin A.slots)} (h : Points A used e o)
    (he : e &&& 1 = 0) : o = none := by
  cases o with
  | none => rfl
  | some a =>
    rw [h.1,A.entry_valid a] at he
    exact absurd he (by decide)

theorem Points.of_valid {used : Nat} {e : Word} {o : Option (Fin A.slots)} (h : Points A used e o)
    (he : e &&& 1 ≠ 0) : ∃ a, o = some a ∧ e = A.entry a := by
  cases o with
  | none => exact absurd h he
  | some a => exact ⟨a,rfl,h.1⟩

theorem Tree.used2 (h : Tree A m t) (ha : t.l2 r i = some a) : a.val < m.used := by
  have := h.l1 r i
  rw [ha] at this
  exact this.2

theorem type_of_invalid {e : Word} (he : e &&& 1 = 0) : e &&& 3 ≠ 3 ∧ e &&& 3 ≠ 1 := by
  have h31 : (3 : Word) &&& 1 = 1 := by decide
  constructor
  all_goals
    intro h3
    have := congrArg (· &&& 1) h3
    simp only [BitVec.and_assoc,h31,he] at this
    exact absurd this (by decide)

theorem Tree.walk_eq (h : Tree A m t) (r : ρ) (va : Word) :
    walk m.mem (A.root r) va = leaf A m t r (l1Idx va) (l2Idx va) (l3Idx va) := by
  have h1 := h.l1 r (l1Idx va)
  cases ha : t.l2 r (l1Idx va) with
  | none =>
    rw [ha] at h1
    have := type_of_invalid h1
    simp only [walk,leaf,h.top r _ _ ha,if_neg this.1,if_neg this.2,Option.bind_none]
  | some a =>
    rw [ha] at h1
    have h2 := h.l2 r _ a ha (l2Idx va)
    cases hb : t.l3 r (l1Idx va) (l2Idx va) with
    | none =>
      rw [hb] at h2
      have := type_of_invalid h2
      simp only [walk,leaf,hb,h1.1,A.entry_type,A.descAddr_entry,if_neg this.1,if_neg this.2,
        if_true,Option.bind_none]
    | some b =>
      rw [hb] at h2
      simp only [walk,leaf,hb,h1.1,h2.1,A.entry_type,A.descAddr_entry,if_true,Option.bind_some]

structure FreshTable (t : TableTree ρ A.slots) (a : Fin A.slots) : Prop where
  l2 : ∀ r i, t.l2 r i ≠ some a
  l3 : ∀ r i j, t.l3 r i j ≠ some a

theorem Tree.fresh (h : Tree A m t) (ha : a.val = m.used) : FreshTable t a where
  l2 r i hi := by
    have := h.used2 hi
    omega
  l3 r i j hi := by
    have := h.used3 r i j a hi
    omega

theorem leaf_of_mem {m' : Tables} (h : ∀ a, t.l3 r i j = some a → m'.mem (A.table a) =
    m.mem (A.table a)) (k : Fin 512) : leaf A m' t r i j k = leaf A m t r i j k := by
  unfold leaf
  cases ha : t.l3 r i j with
  | none => rfl
  | some a => simp only [Option.bind_some,h a ha]

theorem Tree.take (h : Tree A m t) (hu : m.used < A.slots) (z : Fin 512 → Word) :
    let a : Fin A.slots := ⟨m.used,hu⟩
    let m' := { m with mem := Function.update m.mem (A.table a) z, used := m.used + 1 }
    Tree A m' t ∧ FreshTable t a ∧ a.val < m'.used ∧ m'.mem (A.table a) = z ∧
      (∀ r, m'.mem (A.root r) = m.mem (A.root r)) ∧
      (∀ b, b ≠ a → m'.mem (A.table b) = m.mem (A.table b)) := by
  intro a m'
  have hfresh : FreshTable t a := h.fresh rfl
  have hroot : ∀ r, m'.mem (A.root r) = m.mem (A.root r) := fun r =>
    Function.update_of_ne (A.root_ne_table r a) _ _
  have hother : ∀ b, b ≠ a → m'.mem (A.table b) = m.mem (A.table b) := fun b hb =>
    Function.update_of_ne (fun he => hb (A.table_inj he)) _ _
  refine ⟨?_,hfresh,Nat.lt_succ_self _,Function.update_self _ _ _,hroot,hother⟩
  obtain ⟨h1,h2,h3,h4,h5,h6,h7⟩ := h
  refine ⟨fun r i => ?_,fun r i b hb j => ?_,h3,h4,h5,h6,fun r i j b hb => ?_⟩
  · rw [hroot]
    exact (h1 r i).mono (Nat.le_succ _)
  · rw [hother b fun he => hfresh.l2 r i (he ▸ hb)]
    exact (h2 r i b hb j).mono (Nat.le_succ _)
  · exact Nat.lt_succ_of_lt (h7 r i j b hb)

/-- allocate_table gives out a table of zeroes that no entry points to. -/
theorem Tree.allocate (h : Tree A m t) (off : Word)
    (hr : (allocateTable A off m).2.ranOut = false) :
    ∃ a m', allocateTable A off m = (A.table a + off,m') ∧ Tree A m' t ∧ FreshTable t a ∧
      a.val < m'.used ∧ (∀ j, m'.mem (A.table a) j = 0) ∧
      (∀ r, m'.mem (A.root r) = m.mem (A.root r)) ∧
      (∀ b, b ≠ a → m'.mem (A.table b) = m.mem (A.table b)) := by
  unfold allocateTable at hr ⊢
  split at hr
  · simp at hr
  · rename_i hu
    have ha : m.used < A.slots := Nat.lt_of_not_le hu
    have htab : A.pool + BitVec.ofNat 64 (4096 * m.used) = A.table ⟨m.used,ha⟩ := rfl
    obtain ⟨htree,hfresh,hused,hzero,hroot,hother⟩ := h.take ha fun _ => 0
    refine ⟨⟨m.used,ha⟩,_,by rw [if_neg hu]; rfl,?_⟩
    simp only [BitVec.add_sub_cancel,htab]
    exact ⟨htree,hfresh,hused,fun j => congrFun hzero j,hroot,hother⟩

variable [DecidableEq ρ]

namespace TableTree
variable {n : Nat}

def setL2 (t : TableTree ρ n) (r : ρ) (i : Fin 512) (a : Fin n) : TableTree ρ n :=
  { t with l2 := fun r' i' => if r' = r ∧ i' = i then some a else t.l2 r' i' }

def setL3 (t : TableTree ρ n) (r : ρ) (i j : Fin 512) (a : Fin n) : TableTree ρ n :=
  { t with l3 := fun r' i' j' => if r' = r ∧ i' = i ∧ j' = j then some a else t.l3 r' i' j' }

end TableTree

theorem Tree.linkL2 (h : Tree A m t) (hi : t.l2 r i = none) (hf : FreshTable t a)
    (hz : ∀ j, m.mem (A.table a) j &&& 1 = 0) (ha : a.val < m.used) :
    Tree A (m.put (A.root r) i (A.entry a)) (t.setL2 r i a) := by
  obtain ⟨h1,h2,h3,h4,h5,h6,h7⟩ := h
  obtain ⟨hf2,hf3⟩ := hf
  refine ⟨fun r' i' => ?_,fun r' i' b hb j => ?_,fun r' i' j hn => ?_,
    fun r' i' r'' i'' b hb hb' => ?_,h5,fun r' i' r'' i'' j b hb => ?_,h7⟩
  all_goals
    simp only [TableTree.setL2,Tables.put_mem] at *
  · by_cases hri : r' = r ∧ i' = i
    · obtain ⟨rfl,rfl⟩ := hri
      simp only [and_self,if_true]
      exact ⟨rfl,ha⟩
    · rw [if_neg hri,if_neg (fun he => hri ⟨A.rootInj _ _ he.1,he.2⟩)]
      exact h1 r' i'
  · rw [if_neg (fun he => A.root_ne_table r b he.1.symm)]
    by_cases hri : r' = r ∧ i' = i
    · obtain ⟨rfl,rfl⟩ := hri
      simp only [and_self,if_true,Option.some.injEq] at hb
      subst hb
      rw [h3 r' i' j hi]
      exact hz j
    · rw [if_neg hri] at hb
      exact h2 r' i' b hb j
  · by_cases hri : r' = r ∧ i' = i
    · simp [hri] at hn
    · rw [if_neg hri] at hn
      exact h3 r' i' j hn
  · grind
  · grind

theorem Tree.linkL3 (h : Tree A m t) (hi : t.l2 r i = some b) (hj : t.l3 r i j = none)
    (hf : FreshTable t a) (ha : a.val < m.used) :
    Tree A (m.put (A.table b) j (A.entry a)) (t.setL3 r i j a) := by
  obtain ⟨h1,h2,h3,h4,h5,h6,h7⟩ := h
  obtain ⟨hf2,hf3⟩ := hf
  refine ⟨fun r' i' => ?_,fun r' i' c hc j' => ?_,fun r' i' j' hn => ?_,h4,
    fun r' i' j' r'' i'' j'' c hc hc' => ?_,fun r' i' r'' i'' j' c hc => ?_,
    fun r' i' j' c hc => ?_⟩
  all_goals
    simp only [TableTree.setL3,Tables.put_mem] at *
  · rw [if_neg (fun he => A.root_ne_table r' b he.1)]
    exact h1 r' i'
  · by_cases hri : r' = r ∧ i' = i ∧ j' = j
    · obtain ⟨rfl,rfl,rfl⟩ := hri
      obtain rfl : b = c := Option.some.inj (hi.symm.trans hc)
      simp only [and_self,if_true]
      exact ⟨rfl,ha⟩
    · rw [if_neg hri,if_neg]
      · exact h2 r' i' c hc j'
      · rintro ⟨he,hj'⟩
        obtain ⟨hr,hi'⟩ := h4 r' i' r i c hc (A.table_inj he ▸ hi)
        exact hri ⟨hr,hi',hj'⟩
  · grind
  · grind
  · grind
  · change c.val < m.used
    grind

theorem Tree.putLeaf (h : Tree A m t) (ha : t.l3 r i j = some a) (k : Fin 512) (d : Word) :
    Tree A (m.put (A.table a) k d) t ∧ ∀ r' i' j' k',
      leaf A (m.put (A.table a) k d) t r' i' j' k' =
        if r' = r ∧ i' = i ∧ j' = j ∧ k' = k then leafOf d else leaf A m t r' i' j' k' := by
  obtain ⟨h1,h2,h3,h4,h5,h6,h7⟩ := h
  refine ⟨⟨fun r' i' => ?_,fun r' i' c hc j' => ?_,h3,h4,h5,h6,h7⟩,fun r' i' j' k' => ?_⟩
  · rw [Tables.put_mem,if_neg (fun he => A.root_ne_table r' a he.1)]
    exact h1 r' i'
  · rw [Tables.put_mem,if_neg]
    · exact h2 r' i' c hc j'
    · rintro ⟨he,_⟩
      exact h6 r' i' r i j c hc (A.table_inj he ▸ ha)
  · unfold leaf
    cases hb : t.l3 r' i' j' with
    | none =>
      have hne : ¬ (r' = r ∧ i' = i ∧ j' = j ∧ k' = k) := by
        rintro ⟨rfl,rfl,rfl,_⟩
        simp [ha] at hb
      rw [if_neg hne]
      rfl
    | some b =>
      simp only [Option.bind_some,Tables.put_mem]
      by_cases hri : r' = r ∧ i' = i ∧ j' = j
      · obtain ⟨rfl,rfl,rfl⟩ := hri
        obtain rfl : a = b := Option.some.inj (ha.symm.trans hb)
        simp only [true_and]
        split <;> rfl
      · rw [if_neg,if_neg]
        · exact fun he => hri ⟨he.1,he.2.1,he.2.2.1⟩
        · rintro ⟨he,_⟩
          exact hri (h5 r' i' j' r i j b hb (A.table_inj he ▸ ha))

theorem Tree.linkL2_leaf (t : TableTree ρ A.slots) (r : ρ) (i : Fin 512) (a : Fin A.slots)
    (d : Word) (r' : ρ) (i' j' k' : Fin 512) :
    leaf A (m.put (A.root r) i d) (t.setL2 r i a) r' i' j' k' = leaf A m t r' i' j' k' := by
  have hmem : ∀ c, (m.put (A.root r) i d).mem (A.table c) = m.mem (A.table c) := by
    intro c
    funext k
    rw [Tables.put_mem,if_neg fun he => A.root_ne_table r c he.1.symm]
  exact @leaf_of_mem ρ A m t r' i' j' (m.put (A.root r) i d) (fun c _ => hmem c) k'

theorem Tree.linkL3_leaf (h : Tree A m t) (hb : t.l2 r i = some b) (hf : FreshTable t a)
    (d : Word) (r' : ρ) (i' j' k' : Fin 512) :
    leaf A (m.put (A.table b) j d) (t.setL3 r i j a) r' i' j' k' =
      if r' = r ∧ i' = i ∧ j' = j then leafOf (m.mem (A.table a) k')
      else leaf A m t r' i' j' k' := by
  by_cases hri : r' = r ∧ i' = i ∧ j' = j
  · have hset : (t.setL3 r i j a).l3 r' i' j' = some a := if_pos hri
    have hab : A.table a ≠ A.table b := fun he => hf.l2 r i (A.table_inj he ▸ hb)
    rw [leaf,hset,Option.bind_some,Tables.put_mem,if_neg fun he => hab he.1,if_pos hri]
  · have hset : (t.setL3 r i j a).l3 r' i' j' = t.l3 r' i' j' := if_neg hri
    rw [leaf,hset,if_neg hri,leaf]
    cases hc : t.l3 r' i' j' with
    | none => rfl
    | some c =>
      have hne : A.table c ≠ A.table b := by
        intro he
        exact h.apart r i r' i' j' b hb (A.table_inj he ▸ hc)
      rw [Option.bind_some,Option.bind_some,Tables.put_mem,if_neg fun he => hne he.1]

/-- A table below a root entry, new or not, changes no leaf, and is missing no more. -/
theorem Tree.ensureL2 (h : Tree A m t) {off : Word} (r : ρ) (i : Fin 512)
    (hr : (ensureTable A off (A.root r + off) i m).ranOut = false) :
    ∃ t' a, Tree A (ensureTable A off (A.root r + off) i m) t' ∧ t'.l2 r i = some a ∧
      (∀ r' i' j' k', leaf A (ensureTable A off (A.root r + off) i m) t' r' i' j' k' =
        leaf A m t r' i' j' k') ∧
      t'.l3 = t.l3 ∧ ∀ i', i' ≠ i → t'.l2 r i' = t.l2 r i' := by
  have h1 := h.l1 r i
  unfold ensureTable at hr ⊢
  rw [Tables.load_add] at hr ⊢
  split at hr
  · rename_i he
    obtain ⟨a,m',hm,h',hf,ha,hz,_,hother⟩ := h.allocate off hr
    have hi := h1.of_and he
    have hinvalid : ∀ j, m'.mem (A.table a) j &&& 1 = 0 := by
      intro j
      rw [hz]
      exact BitVec.zero_and
    rw [if_pos he,hm]
    simp only [Tables.store_add,BitVec.add_sub_cancel]
    refine ⟨t.setL2 r i a,a,h'.linkL2 hi hf hinvalid ha,if_pos ⟨rfl,rfl⟩,fun r' i' j' k' => ?_,rfl,
      fun i' hi' => if_neg fun he => hi' he.2⟩
    refine (Tree.linkL2_leaf t r i a _ r' i' j' k').trans (leaf_of_mem (fun c hc => ?_) k')
    refine hother c ?_
    rintro rfl
    exact hf.l3 r' i' j' hc
  · rename_i he
    obtain ⟨a,ha,_⟩ := h1.of_valid he
    rw [if_neg he]
    exact ⟨t,a,h,ha,fun _ _ _ _ => rfl,rfl,fun _ _ => rfl⟩

theorem Tree.ensureL3 (h : Tree A m t) {off : Word} (hb : t.l2 r i = some b) (j : Fin 512)
    (hr : (ensureTable A off (A.table b + off) j m).ranOut = false) :
    ∃ t' a, Tree A (ensureTable A off (A.table b + off) j m) t' ∧ t'.l2 = t.l2 ∧
      t'.l3 r i j = some a ∧
      (∀ r' i' j' k', leaf A (ensureTable A off (A.table b + off) j m) t' r' i' j' k' =
        leaf A m t r' i' j' k') ∧
      ∀ i' j', (i',j') ≠ (i,j) → t'.l3 r i' j' = t.l3 r i' j' := by
  have h2 := h.l2 r i b hb j
  unfold ensureTable at hr ⊢
  rw [Tables.load_add] at hr ⊢
  split at hr
  · rename_i he
    obtain ⟨a,m',hm,h',hf,ha,hz,_,hother⟩ := h.allocate off hr
    have hj := h2.of_and he
    rw [if_pos he,hm]
    simp only [Tables.store_add,BitVec.add_sub_cancel]
    refine ⟨t.setL3 r i j a,a,h'.linkL3 hb hj hf ha,rfl,if_pos ⟨rfl,rfl,rfl⟩,
      fun r' i' j' k' => ?_,fun i' j' hij => if_neg fun he => hij (Prod.ext he.2.1 he.2.2)⟩
    rw [h'.linkL3_leaf hb hf]
    by_cases hri : r' = r ∧ i' = i ∧ j' = j
    · obtain ⟨rfl,rfl,rfl⟩ := hri
      have hempty : leafOf 0 = none := by decide
      rw [if_pos ⟨rfl,rfl,rfl⟩,hz,hempty,leaf,hj,Option.bind_none]
    · rw [if_neg hri]
      refine leaf_of_mem (fun c hc => hother c ?_) k'
      rintro rfl
      exact hf.l3 r' i' j' hc
  · rename_i he
    obtain ⟨a,ha,_⟩ := h2.of_valid he
    rw [if_neg he]
    exact ⟨t,a,h,rfl,ha,fun _ _ _ _ => rfl,fun _ _ _ => rfl⟩

omit [DecidableEq ρ] in
theorem ensureTable_ranOut (off table : Word) (i : Fin 512)
    (hr : (ensureTable A off table i m).ranOut = false) : m.ranOut = false := by
  unfold ensureTable allocateTable at hr
  split at hr
  · split at hr
    · simp [Tables.store,Tables.put] at hr
    · exact hr
  · exact hr

omit [DecidableEq ρ] in
theorem Tree.nextL2 (h : Tree A m t) (ha : t.l2 r i = some a) (off : Word) :
    nextTable off (A.root r + off) i m = A.table a + off := by
  have := h.l1 r i
  rw [ha] at this
  rw [nextTable,Tables.load_add,this.1,A.entry_mask]

omit [DecidableEq ρ] in
theorem Tree.nextL3 (h : Tree A m t) (ha : t.l2 r i = some a) (hb : t.l3 r i j = some b)
    (off : Word) : nextTable off (A.table a + off) j m = A.table b + off := by
  have := h.l2 r i a ha j
  rw [hb] at this
  rw [nextTable,Tables.load_add,this.1,A.entry_mask]

/-- mapPage gives one page of one root a descriptor, whatever `off` is. -/
theorem Tree.mapPage (h : Tree A m t) (off : Word) (r : ρ) (va pa flags : Word)
    (hr : (mapPage A off (A.root r + off) va pa flags m).ranOut = false) :
    ∃ t', Tree A (mapPage A off (A.root r + off) va pa flags m) t' ∧
      ∀ r' i' j' k', leaf A (mapPage A off (A.root r + off) va pa flags m) t' r' i' j' k' =
        if r' = r ∧ i' = l1Idx va ∧ j' = l2Idx va ∧ k' = l3Idx va then
          leafOf (pa &&& ~~~0xFFF ||| flags ||| pteTypePage)
        else leaf A m t r' i' j' k' := by
  unfold Arm64.mapPage at hr ⊢
  dsimp only at hr ⊢
  obtain ⟨t₁,a,h₁,ha,hleaf₁,_⟩ := h.ensureL2 r (l1Idx va) (ensureTable_ranOut _ _ _ hr)
  rw [h₁.nextL2 ha] at hr ⊢
  obtain ⟨t₂,b,h₂,hl2,hb,hleaf₂,_⟩ := h₁.ensureL3 ha (l2Idx va) hr
  rw [h₂.nextL3 (hl2 ▸ ha) hb,Tables.store_add]
  obtain ⟨h₃,hleaf₃⟩ := h₂.putLeaf hb (l3Idx va) (pa &&& ~~~0xFFF ||| flags ||| pteTypePage)
  refine ⟨t₂,h₃,fun r' i' j' k' => ?_⟩
  rw [hleaf₃,hleaf₂,hleaf₁]

omit [DecidableEq ρ] in
theorem mapPage_ranOut {off root va pa flags : Word}
    (hr : (mapPage A off root va pa flags m).ranOut = false) : m.ranOut = false :=
  ensureTable_ranOut _ _ _ (ensureTable_ranOut _ _ _ hr)

theorem Tree.unmapPage (h : Tree A m t) (off : Word) (r : ρ) (va : Word) :
    Tree A (unmapPage off (A.root r + off) va m) t ∧ ∀ r' i' j' k',
      leaf A (unmapPage off (A.root r + off) va m) t r' i' j' k' =
        if r' = r ∧ i' = l1Idx va ∧ j' = l2Idx va ∧ k' = l3Idx va then none
        else leaf A m t r' i' j' k' := by
  have hsame : (t.l3 r (l1Idx va) (l2Idx va) = none) → ∀ r' i' j' k', leaf A m t r' i' j' k' =
      if r' = r ∧ i' = l1Idx va ∧ j' = l2Idx va ∧ k' = l3Idx va then none
      else leaf A m t r' i' j' k' := by
    intro hn r' i' j' k'
    split
    · rename_i he
      obtain ⟨rfl,rfl,rfl,_⟩ := he
      simp [leaf,hn]
    · rfl
  have h1 := h.l1 r (l1Idx va)
  unfold Arm64.unmapPage
  dsimp only
  rw [Tables.load_add]
  split
  · rename_i he
    exact ⟨h,hsame (h.top _ _ _ (h1.of_and he))⟩
  · rename_i he
    obtain ⟨a,ha,_⟩ := h1.of_valid he
    have h2 := h.l2 r _ a ha (l2Idx va)
    rw [h.nextL2 ha,Tables.load_add]
    split
    · rename_i he
      exact ⟨h,hsame (h2.of_and he)⟩
    · rename_i he
      obtain ⟨b,hb,_⟩ := h2.of_valid he
      rw [h.nextL3 ha hb,Tables.store_add]
      exact h.putLeaf hb (l3Idx va) 0

section Index

theorem vaAddr_toNat (va : Word) : (vaAddr va).toNat = va.toNat % 2 ^ 32 := by
  rw [vaAddr,BitVec.toNat_and]
  exact Nat.and_two_pow_sub_one_eq_mod va.toNat 32

theorem shift_and_511 (w : Word) (n : Nat) :
    (w >>> n &&& 0x1FF).toNat = w.toNat / 2 ^ n % 512 := by
  rw [BitVec.toNat_and,BitVec.toNat_ushiftRight,Nat.shiftRight_eq_div_pow]
  exact Nat.and_two_pow_sub_one_eq_mod _ 9

theorem l1Idx_val (va : Word) : (l1Idx va).val = pageNumber va / 2 ^ 18 % 512 := by
  simp only [l1Idx,shift_and_511,vaAddr_toNat,pageNumber]
  omega

theorem l2Idx_val (va : Word) : (l2Idx va).val = pageNumber va / 2 ^ 9 % 512 := by
  simp only [l2Idx,shift_and_511,vaAddr_toNat,pageNumber]
  omega

theorem l3Idx_val (va : Word) : (l3Idx va).val = pageNumber va % 512 := by
  simp only [l3Idx,shift_and_511,vaAddr_toNat]
  rfl

theorem pageNumber_lt (va : Word) : pageNumber va < 2 ^ 20 := by
  unfold pageNumber
  omega

theorem index_eq_iff (va va' : Word) :
    (l1Idx va = l1Idx va' ∧ l2Idx va = l2Idx va' ∧ l3Idx va = l3Idx va') ↔
      pageNumber va = pageNumber va' := by
  have h := pageNumber_lt va
  have h' := pageNumber_lt va'
  simp only [Fin.ext_iff,l1Idx_val,l2Idx_val,l3Idx_val]
  omega

theorem walk_page {va va' : Word} (h : pageNumber va' = pageNumber va) (mem : TableMem)
    (root : Word) : walk mem root va' = walk mem root va := by
  obtain ⟨h1,h2,h3⟩ := (index_eq_iff va' va).mpr h
  simp only [walk,h1,h2,h3]

theorem pageNumber_add (va : Word) (n : Nat) :
    pageNumber (va + BitVec.ofNat 64 (4096 * n)) = (pageNumber va + n) % 2 ^ 20 := by
  unfold pageNumber
  rw [BitVec.toNat_add,BitVec.toNat_ofNat]
  omega

/-- How many pages `p` lies after the page of `va`, where page 0 follows the last one. -/
def pageOffset (va : Word) (p : Nat) : Nat := (p + (2 ^ 20 - pageNumber va)) % 2 ^ 20

theorem pageNumber_add_iff {va va' : Word} {n : Nat} (hn : n < 2 ^ 20) :
    pageNumber va' = pageNumber (va + BitVec.ofNat 64 (4096 * n)) ↔
      pageOffset va (pageNumber va') = n := by
  have := pageNumber_lt va
  have := pageNumber_lt va'
  rw [pageNumber_add,pageOffset]
  omega

theorem pageOffset_lt_iff {va : Word} {p n : Nat} (hp : p < 2 ^ 20)
    (hn : pageNumber va + n ≤ 2 ^ 20) :
    pageOffset va p < n ↔ pageNumber va ≤ p ∧ p < pageNumber va + n := by
  have := pageNumber_lt va
  unfold pageOffset
  omega

theorem pageOffset_of_le {va : Word} {p : Nat} (hp : p < 2 ^ 20) (h : pageNumber va ≤ p) :
    pageOffset va p = p - pageNumber va := by
  have := pageNumber_lt va
  unfold pageOffset
  omega

end Index

def TablesOk (A : TableArea ρ) (m : Tables) : Prop := ∃ t, Tree A m t

omit [DecidableEq ρ] in
theorem tablesOk_of_zero (h : ∀ r i, m.mem (A.root r) i = 0) : TablesOk A m := by
  refine ⟨⟨fun _ _ => none,fun _ _ _ => none⟩,⟨fun r i => ?_,nofun,fun _ _ _ _ => rfl,nofun,
    nofun,nofun,nofun⟩⟩
  rw [h r i]
  exact BitVec.zero_and

theorem walk_of_zero {mem : TableMem} {root : Word} (h : ∀ i, mem root i = 0) (va : Word) :
    walk mem root va = none := by
  have he : mem root (l1Idx va) &&& 1 = 0 := by
    rw [h]
    exact BitVec.zero_and
  have := type_of_invalid he
  simp only [walk,if_neg this.1,if_neg this.2]

theorem mapPage_walk (h : TablesOk A m) {off : Word} {r : ρ} {va pa flags : Word}
    (hr : (mapPage A off (A.root r + off) va pa flags m).ranOut = false) :
    TablesOk A (mapPage A off (A.root r + off) va pa flags m) ∧ ∀ r' va',
      walk (mapPage A off (A.root r + off) va pa flags m).mem (A.root r') va' =
        if r' = r ∧ pageNumber va' = pageNumber va then
          leafOf (pa &&& ~~~0xFFF ||| flags ||| pteTypePage)
        else walk m.mem (A.root r') va' := by
  obtain ⟨t,h⟩ := h
  obtain ⟨t',h',hleaf⟩ := h.mapPage off r va pa flags hr
  refine ⟨⟨t',h'⟩,fun r' va' => ?_⟩
  rw [h'.walk_eq,h.walk_eq,hleaf]
  simp only [index_eq_iff]

theorem unmapPage_walk (h : TablesOk A m) (off : Word) (r : ρ) (va : Word) :
    TablesOk A (unmapPage off (A.root r + off) va m) ∧ ∀ r' va',
      walk (unmapPage off (A.root r + off) va m).mem (A.root r') va' =
        if r' = r ∧ pageNumber va' = pageNumber va then none
        else walk m.mem (A.root r') va' := by
  obtain ⟨t,h⟩ := h
  obtain ⟨h',hleaf⟩ := h.unmapPage off r va
  refine ⟨⟨t,h'⟩,fun r' va' => ?_⟩
  rw [h'.walk_eq,h.walk_eq,hleaf]
  simp only [index_eq_iff]

theorem mapPages_walk (h : TablesOk A m) {off : Word} {r : ρ} {va pa flags : Word} {n : Nat}
    (hn : n ≤ 2 ^ 20) :
    let m' := (List.range n).foldl (fun m n =>
      mapPage A off (A.root r + off) (va + BitVec.ofNat 64 (4096 * n))
        (pa + BitVec.ofNat 64 (4096 * n)) flags m) m
    m'.ranOut = false → TablesOk A m' ∧ ∀ r' va', walk m'.mem (A.root r') va' =
      if r' = r ∧ pageOffset va (pageNumber va') < n then
        leafOf ((pa + BitVec.ofNat 64 (4096 * pageOffset va (pageNumber va'))) &&& ~~~0xFFF |||
          flags ||| pteTypePage)
      else walk m.mem (A.root r') va' := by
  induction n with
  | zero =>
    intro m' _
    refine ⟨h,fun r' va' => ?_⟩
    rw [if_neg (by omega)]
    rfl
  | succ n ih =>
    intro m' hr
    simp only [m',List.range_succ,List.foldl_append,List.foldl_cons,List.foldl_nil] at hr ⊢
    obtain ⟨hok,hwalk⟩ := ih (by omega) (mapPage_ranOut hr)
    obtain ⟨hok',hwalk'⟩ := mapPage_walk hok hr
    refine ⟨hok',fun r' va' => ?_⟩
    rw [hwalk',hwalk]
    simp only [@pageNumber_add_iff va va' n (by omega)]
    by_cases hrr : r' = r
    · subst hrr
      simp only [true_and]
      by_cases hv : pageOffset va (pageNumber va') = n
      · rw [if_pos hv,if_pos (by omega),hv]
      · rw [if_neg hv]
        congr 1
        exact propext (by omega)
    · simp [hrr]

omit [DecidableEq ρ] in
theorem foldl_mapPage_ranOut {off root va pa flags : Word} {n : Nat}
    {m : Tables}
    (hr : ((List.range n).foldl (fun m n => mapPage A off root (va + BitVec.ofNat 64 (4096 * n))
      (pa + BitVec.ofNat 64 (4096 * n)) flags m) m).ranOut = false) : m.ranOut = false := by
  induction n with
  | zero => exact hr
  | succ n ih =>
    simp only [List.range_succ,List.foldl_append,List.foldl_cons,List.foldl_nil] at hr
    exact ih (mapPage_ranOut hr)

theorem unmapPage_ranOut (off root va : Word) (m : Tables) :
    (unmapPage off root va m).ranOut = m.ranOut := by
  unfold unmapPage
  dsimp only
  split
  · rfl
  · split <;> rfl

theorem foldl_unmapPage_ranOut (off root va : Word) (n : Nat) (m : Tables) :
    ((List.range n).foldl (fun m n => unmapPage off root (va + BitVec.ofNat 64 (4096 * n)) m)
      m).ranOut = m.ranOut := by
  induction n with
  | zero => rfl
  | succ n ih =>
    simp only [List.range_succ,List.foldl_append,List.foldl_cons,List.foldl_nil,unmapPage_ranOut,ih]

theorem unmapPages_walk (h : TablesOk A m) (off : Word) (r : ρ) (va : Word) {n : Nat}
    (hn : n ≤ 2 ^ 20) :
    let m' := (List.range n).foldl (fun m n =>
      unmapPage off (A.root r + off) (va + BitVec.ofNat 64 (4096 * n)) m) m
    TablesOk A m' ∧ ∀ r' va', walk m'.mem (A.root r') va' =
      if r' = r ∧ pageOffset va (pageNumber va') < n then none
      else walk m.mem (A.root r') va' := by
  induction n with
  | zero =>
    refine ⟨h,fun r' va' => ?_⟩
    rw [if_neg (by omega)]
    rfl
  | succ n ih =>
    intro m'
    simp only [m',List.range_succ,List.foldl_append,List.foldl_cons,List.foldl_nil]
    obtain ⟨hok,hwalk⟩ := ih (by omega)
    obtain ⟨hok',hwalk'⟩ := unmapPage_walk hok off r (va + BitVec.ofNat 64 (4096 * n))
    refine ⟨hok',fun r' va' => ?_⟩
    rw [hwalk',hwalk]
    simp only [@pageNumber_add_iff va va' n (by omega)]
    by_cases hrr : r' = r
    · subst hrr
      simp only [true_and]
      by_cases hv : pageOffset va (pageNumber va') = n
      · rw [if_pos hv,if_pos (by omega)]
      · rw [if_neg hv]
        congr 1
        exact propext (by omega)
    · simp [hrr]

end Arm64

import Arm64Baremetal.PageMap

set_option autoImplicit false

namespace Arm64
open Runs

variable {ρ : Type} {A : TableArea ρ} {m : Tables}

/-- At most `n` tables were taken between the two states, and the pool has not run out. -/
def Takes (n : Nat) (m m' : Tables) : Prop := m'.used ≤ m.used + n ∧ m'.ranOut = false

theorem Takes.trans {n n' : Nat} {m₀ m₁ m₂ : Tables} (h : Takes n m₀ m₁) (h' : Takes n' m₁ m₂) :
    Takes (n + n') m₀ m₂ := by
  obtain ⟨hu,_⟩ := h
  obtain ⟨hu',hr'⟩ := h'
  exact ⟨by omega,hr'⟩

theorem ensureTable_takes (hr : m.ranOut = false) (hu : m.used + 1 ≤ A.slots) (off table : Word)
    (i : Fin 512) : Takes 1 m (ensureTable A off table i m) := by
  unfold ensureTable allocateTable
  split
  · rw [if_neg (by omega)]
    exact ⟨Nat.le_refl _,hr⟩
  · exact ⟨Nat.le_succ _,hr⟩

theorem mapPage_takes (hr : m.ranOut = false) (hu : m.used + 2 ≤ A.slots)
    (off root va pa flags : Word) : Takes 2 m (mapPage A off root va pa flags m) := by
  have h1 := @ensureTable_takes _ A m hr (by omega) off root (l1Idx va)
  have h2 := @ensureTable_takes _ A _ h1.2 (by have := h1.1; omega) off
    (nextTable off root (l1Idx va) (ensureTable A off root (l1Idx va) m)) (l2Idx va)
  exact h1.trans h2

theorem unmapPage_used (off root va : Word) (m : Tables) :
    (unmapPage off root va m).used = m.used := by
  unfold unmapPage
  dsimp only
  split
  · rfl
  · split <;> rfl

theorem unmapRegion_takes (hr : m.ranOut = false) (off root vaStart size : Word) :
    Takes 0 m (unmapRegion off root vaStart size m) := by
  refine ⟨Nat.le_of_eq ?_,(foldl_unmapPage_ranOut _ _ _ _ _).trans hr⟩
  unfold unmapRegion
  induction pageTurns size with
  | zero => rfl
  | succ n ih =>
    rw [List.range_succ,List.foldl_append,List.foldl_cons,List.foldl_nil,unmapPage_used,ih]

section Tree
variable {t : TableTree ρ A.slots} {r : ρ} {i j : Fin 512} {a b : Fin A.slots}

theorem Tree.ensureL2_same (h : Tree A m t) (ha : t.l2 r i = some a) (off : Word) :
    ensureTable A off (A.root r + off) i m = m := by
  have := h.l1 r i
  rw [ha] at this
  rw [ensureTable,Tables.load_add,this.1,A.entry_valid,if_neg (by decide)]

theorem Tree.ensureL3_same (h : Tree A m t) (ha : t.l2 r i = some a) (hb : t.l3 r i j = some b)
    (off : Word) : ensureTable A off (A.table a + off) j m = m := by
  have := h.l2 r i a ha j
  rw [hb] at this
  rw [ensureTable,Tables.load_add,this.1,A.entry_valid,if_neg (by decide)]

theorem Tree.mapPage_takes (h : Tree A m t) (hr : m.ranOut = false) {va : Word}
    (hb : t.l3 r (l1Idx va) (l2Idx va) = some b) (off pa flags : Word) :
    Takes 0 m (Arm64.mapPage A off (A.root r + off) va pa flags m) := by
  obtain ⟨a,ha⟩ : ∃ a, t.l2 r (l1Idx va) = some a := by
    cases ha : t.l2 r (l1Idx va) with
    | none => simp [h.top _ _ _ ha] at hb
    | some a => exact ⟨a,rfl⟩
  unfold Arm64.mapPage
  dsimp only
  rw [h.ensureL2_same ha,h.nextL2 ha,h.ensureL3_same ha hb]
  exact ⟨Nat.le_refl _,hr⟩

end Tree

theorem block_eq {va va' : Word} (h : pageNumber va / 512 = pageNumber va' / 512) :
    l1Idx va = l1Idx va' ∧ l2Idx va = l2Idx va' := by
  refine ⟨Fin.ext ?_,Fin.ext ?_⟩
  · rw [l1Idx_val,l1Idx_val]
    omega
  · rw [l2Idx_val,l2Idx_val]
    omega

theorem leafOf_page (w flags : Word) :
    leafOf (w ||| flags ||| pteTypePage) = some (w ||| flags ||| pteTypePage) := by
  rw [leafOf,if_pos]
  apply BitVec.eq_of_getLsbD_eq
  intro i hi
  simp only [pteTypePage,BitVec.getLsbD_and,BitVec.getLsbD_or]
  grind

theorem mapPage_takes_none (h : TablesOk A m) (hr : m.ranOut = false) {off pa flags : Word} {r : ρ}
    {va va' : Word} (hblock : pageNumber va / 512 = pageNumber va' / 512)
    (hmapped : walk m.mem (A.root r) va ≠ none) :
    Takes 0 m (mapPage A off (A.root r + off) va' pa flags m) := by
  obtain ⟨t,h⟩ := h
  obtain ⟨h1,h2⟩ := block_eq hblock
  rw [h.walk_eq,leaf,h1,h2] at hmapped
  cases hb : t.l3 r (l1Idx va') (l2Idx va') with
  | none => simp [hb] at hmapped
  | some b => exact h.mapPage_takes hr hb off pa flags

def blocks (va : Word) (n : Nat) : Nat := (pageNumber va % 512 + n) / 512 + 1

section Steps
variable [DecidableEq ρ]

theorem mapPages_takes (h : TablesOk A m) (hr : m.ranOut = false) {off : Word} {r : ρ}
    {va pa flags : Word} {n : Nat} (hn : n < 2 ^ 20) (hu : m.used + 2 * blocks va n ≤ A.slots) :
    Takes (2 * blocks va n) m ((List.range (n + 1)).foldl (fun m n =>
      mapPage A off (A.root r + off) (va + BitVec.ofNat 64 (4096 * n))
        (pa + BitVec.ofNat 64 (4096 * n)) flags m) m) := by
  have hp := pageNumber_lt va
  induction n with
  | zero =>
    have htakes := @mapPage_takes _ A m hr (by unfold blocks at hu; omega) off (A.root r + off)
      (va + BitVec.ofNat 64 (4096 * 0)) (pa + BitVec.ofNat 64 (4096 * 0)) flags
    exact ⟨htakes.1.trans (by unfold blocks; omega),htakes.2⟩
  | succ n ih =>
    have hmono : blocks va n ≤ blocks va (n + 1) := by unfold blocks; omega
    have htaken := ih (by omega) (by omega)
    obtain ⟨hok,hwalk⟩ := mapPages_walk h (by omega) htaken.2
    have hmapped := hwalk r (va + BitVec.ofNat 64 (4096 * n))
    have hself : pageOffset va (pageNumber (va + BitVec.ofNat 64 (4096 * n))) = n :=
      (pageNumber_add_iff (by omega)).mp rfl
    rw [if_pos ⟨rfl,by omega⟩,leafOf_page] at hmapped
    rw [List.range_succ,List.foldl_append,List.foldl_cons,List.foldl_nil]
    generalize (List.range (n + 1)).foldl _ m = m' at htaken hok hmapped ⊢
    by_cases hb : (pageNumber va % 512 + (n + 1)) % 512 = 0
    · -- the first page of a block
      have hblocks : blocks va (n + 1) = blocks va n + 1 := by unfold blocks; omega
      rw [hblocks] at hu ⊢
      have hfit : m'.used + 2 ≤ A.slots := by have := htaken.1; omega
      exact htaken.trans (mapPage_takes htaken.2 hfit off _ _ _ flags)
    · have hblock : pageNumber (va + BitVec.ofNat 64 (4096 * n)) / 512 =
          pageNumber (va + BitVec.ofNat 64 (4096 * (n + 1))) / 512 := by
        rw [pageNumber_add,pageNumber_add]
        omega
      have htakes := htaken.trans (@mapPage_takes_none _ _ _ hok htaken.2 off
        (pa + BitVec.ofNat 64 (4096 * (n + 1))) flags r _ _ hblock (by simp [hmapped]))
      exact ⟨htakes.1.trans (by omega),htakes.2⟩

def MapCall.budget : MapCall ρ → Nat
  | .mapPageVirtual .. => 2
  | .mapRegionVirtual _ vaStart _ size _ =>
      match pageTurns size with
      | 0 => 0
      | n + 1 => 2 * blocks (vaStart &&& ~~~0xFFF) n
  | .unmapRegionVirtual .. => 0

omit [DecidableEq ρ] in
theorem budget_region (r : ρ) (vaStart paStart flags : Word) {size : Word} {n : Nat}
    (hn : pageTurns size = n + 1) :
    (MapCall.mapRegionVirtual r vaStart paStart size flags).budget =
      2 * blocks (vaStart &&& ~~~0xFFF) n := by
  simp only [MapCall.budget,hn]

theorem mapCallAt_takes (h : TablesOk A m) (hr : m.ranOut = false) {c : MapCall ρ} (hl : c.Legal)
    (hu : m.used + c.budget ≤ A.slots) (off : Word) : Takes c.budget m (mapCallAt A off m c) := by
  cases c with
  | mapPageVirtual r va pa flags => exact mapPage_takes hr hu off _ va pa flags
  | mapRegionVirtual r vaStart paStart size flags =>
    have hturns := pageTurns_le hl.1
    unfold MapCall.budget at hu ⊢
    unfold mapCallAt mapRegion
    dsimp only at hu ⊢
    cases hn : pageTurns size with
    | zero => exact ⟨Nat.le_refl _,hr⟩
    | succ n =>
      rw [hn] at hu hturns
      exact mapPages_takes h hr hturns hu
  | unmapRegionVirtual r vaStart size => exact unmapRegion_takes hr off _ vaStart size

/-- Calls that fit in the pool do not run out of tables. -/
theorem exec_takes {f : PageMap ρ} (h : Maps A m f) (hr : m.ranOut = false) {cs : List (MapCall ρ)}
    (hl : ∀ c ∈ cs, c.Legal) (hu : m.used + (cs.map MapCall.budget).sum ≤ A.slots) (off : Word) :
    Takes (cs.map MapCall.budget).sum m (exec (mapCallAt A off) m cs) := by
  induction cs generalizing m f with
  | nil => exact ⟨Nat.le_refl _,hr⟩
  | cons c cs ih =>
    rw [List.map_cons,List.sum_cons] at hu ⊢
    have hc := mapCallAt_takes h.ok hr (hl c (by simp)) (by omega) off
    have hmaps := h.mapCallAt (hl c (by simp)) hc.2
    have := hc.1
    exact hc.trans (ih hmaps hc.2 (fun c hc => hl c (by simp [hc])) (by omega))

end Steps

end Arm64

import Mathlib.Data.List.Perm.Basic
import Mathlib.Logic.Function.Basic

/-!
First-fit search in a map of slots, by two nested loops, and what such a map has to do
with a list of allocated runs.
-/

set_option autoImplicit false

namespace FirstFit

structure Run where
  start : Nat
  length : Nat
  deriving DecidableEq

instance : Membership Nat Run := ⟨fun r i => r.start ≤ i ∧ i < r.start + r.length⟩

theorem mem_run {i : Nat} {r : Run} : i ∈ r ↔ r.start ≤ i ∧ i < r.start + r.length := Iff.rfl

instance (i : Nat) (r : Run) : Decidable (i ∈ r) := inferInstanceAs (Decidable (_ ∧ _))

def Run.Apart (r q : Run) : Prop := ∀ i, i ∈ r → i ∉ q

section Search
variable (free : Nat → Bool)

/-- `for (j = 0; j < n; j++) if (!free[i + j]) { found = 0; break; }` -/
def isFree : Nat → Nat → Bool
  | _, 0 => true
  | i, n + 1 => if free i then isFree (i + 1) n else false

/-- `for (; m > 0; i++, m--) if (found) return i;` -/
def search (n : Nat) : Nat → Nat → Option Nat
  | _, 0 => none
  | i, m + 1 => if isFree free i n then some i else search n (i + 1) m

theorem isFree_iff {i n : Nat} : isFree free i n = true ↔ ∀ j ∈ Run.mk i n, free j = true := by
  induction n generalizing i with
  | zero =>
    simp only [isFree,mem_run,true_iff]
    omega
  | succ n ih =>
    simp only [isFree,Bool.if_false_right,Bool.and_eq_true,decide_eq_true_eq,ih,mem_run]
    constructor
    · rintro ⟨hi,h⟩ j hj
      by_cases hji : j = i
      · rwa [hji]
      · exact h j (by omega)
    · exact fun h => ⟨h i (by omega),fun j hj => h j (by omega)⟩

theorem search_eq_some {n i m k : Nat} (h : search free n i m = some k) :
    (i ≤ k ∧ k < i + m) ∧ isFree free k n = true ∧
      ∀ l, i ≤ l → l < k → isFree free l n = false := by
  induction m generalizing i with
  | zero => simp [search] at h
  | succ m ih =>
    unfold search at h
    split at h
    · rename_i hi
      obtain rfl : i = k := Option.some.inj h
      exact ⟨by omega,hi,by omega⟩
    · rename_i hi
      obtain ⟨hk,hfree,hleast⟩ := ih h
      refine ⟨by omega,hfree,fun l hl hlk => ?_⟩
      by_cases hli : l = i
      · rw [hli]
        exact Bool.not_eq_true _ ▸ hi
      · exact hleast l (by omega) hlk

theorem search_eq_none {n i m : Nat} (h : search free n i m = none) :
    ∀ l, i ≤ l → l < i + m → isFree free l n = false := by
  induction m generalizing i with
  | zero => omega
  | succ m ih =>
    unfold search at h
    split at h
    · simp at h
    · rename_i hi
      intro l hl hlm
      by_cases hli : l = i
      · rw [hli]
        exact Bool.not_eq_true _ ▸ hi
      · exact ih h l (by omega) (by omega)

/-- When the slots in use are blocks of `n` slots, the search for `n` free slots finds the
first block that is not in use. -/
theorem search_blocks {n m b : Nat} {B : Nat → Prop}
    (hfree : ∀ i, i + 1 < m + n → (free i = true ↔ ¬ B (i / n))) (hb : ¬ B b)
    (hmin : ∀ a, a < b → B a) (hn : 0 < n) (hm : n * b < m) : search free n 0 m = some (n * b) := by
  have hrun : isFree free (n * b) n = true := by
    rw [isFree_iff]
    intro j hj
    obtain ⟨hlo,hhi⟩ : n * b ≤ j ∧ j < n * b + n := hj
    have hj' : j < (b + 1) * n := by
      rw [Nat.succ_mul,Nat.mul_comm]
      exact hhi
    have hdiv : j / n = b := Nat.div_eq_of_lt_le (by rwa [Nat.mul_comm]) hj'
    rw [hfree j (by omega),hdiv]
    exact hb
  cases hs : search free n 0 m with
  | none =>
    have := search_eq_none free hs (n * b) (Nat.zero_le _) (by omega)
    rw [hrun] at this
    contradiction
  | some k =>
    obtain ⟨hk,hfree',hleast⟩ := search_eq_some free hs
    have hle : ¬ n * b < k := fun hlt => by
      have := hleast (n * b) (Nat.zero_le _) hlt
      rw [hrun] at this
      contradiction
    have hge : ¬ k < n * b := fun hlt => by
      have hkb : k / n < b := Nat.div_lt_of_lt_mul hlt
      have hmem : k ∈ Run.mk k n := ⟨Nat.le_refl k,Nat.lt_add_of_pos_right hn⟩
      have hkfree := (isFree_iff free).mp hfree' k hmem
      exact (hfree k (by omega)).mp hkfree (hmin _ hkb)
    rw [show k = n * b by omega]

end Search

/-- `for (j = 0; j < n; j++) map[i + j] = b;` -/
def setRun {β : Type*} (b : β) : (Nat → β) → Nat → Nat → Nat → β
  | map, _, 0 => map
  | map, i, n + 1 => setRun b (Function.update map i b) (i + 1) n

theorem setRun_apply {β : Type*} (b : β) (map : Nat → β) (i n j : Nat) :
    setRun b map i n j = if j ∈ Run.mk i n then b else map j := by
  simp only [mem_run]
  induction n generalizing map i with
  | zero =>
    rw [if_neg (by omega)]
    rfl
  | succ n ih =>
    rw [setRun,ih]
    by_cases hj : j = i
    · subst hj
      rw [if_neg (by omega),if_pos (by omega),Function.update_self]
    · rw [Function.update_of_ne hj]
      congr 1
      exact propext (by omega)

/-- The slots below `size` that are in use are those of the runs, and no two runs share
one. -/
structure Allocated (size : Nat) (used : Nat → Prop) (runs : List Run) : Prop where
  bound : ∀ r ∈ runs, 0 < r.length ∧ r.start + r.length ≤ size
  apart : runs.Pairwise Run.Apart
  used_iff : ∀ i, i < size → (used i ↔ ∃ r ∈ runs, i ∈ r)

variable {size : Nat} {used used' : Nat → Prop} {runs : List Run} {r : Run}

theorem Run.Apart.symm {r q : Run} (h : r.Apart q) : q.Apart r := fun i hq hr => h i hr hq

theorem allocated_nil (h : ∀ i, i < size → ¬ used i) : Allocated size used [] where
  bound r hr := by simp at hr
  apart := .nil
  used_iff i hi := by simpa using h i hi

theorem Allocated.alloc (h : Allocated size used runs) (hr : 0 < r.length)
    (hb : r.start + r.length ≤ size) (hf : ∀ i ∈ r, ¬ used i)
    (hu : ∀ i, i < size → (used' i ↔ used i ∨ i ∈ r)) : Allocated size used' (r :: runs) where
  bound q hq := by
    rcases List.mem_cons.mp hq with rfl | hq
    · exact ⟨hr,hb⟩
    · exact h.bound q hq
  apart := by
    refine List.pairwise_cons.mpr ⟨fun q hq i hi hiq => ?_,h.apart⟩
    have hi' : i < size := by
      rw [mem_run] at hi
      omega
    exact hf i hi ((h.used_iff i hi').mpr ⟨q,hq,hiq⟩)
  used_iff i hi := by
    rw [hu i hi,h.used_iff i hi]
    simp [or_comm]

theorem Allocated.free {rs : List Run} (h : Allocated size used (runs ++ r :: rs))
    (hu : ∀ i, i < size → (used' i ↔ used i ∧ i ∉ r)) : Allocated size used' (runs ++ rs) := by
  have hp : List.Perm (runs ++ r :: rs) (r :: (runs ++ rs)) := List.perm_middle
  have hapart := (hp.pairwise_iff Run.Apart.symm).mp h.apart
  rw [List.pairwise_cons] at hapart
  refine ⟨fun q hq => h.bound q (hp.mem_iff.mpr (List.mem_cons_of_mem r hq)),hapart.2,
    fun i hi => ?_⟩
  rw [hu i hi,h.used_iff i hi]
  constructor
  · rintro ⟨⟨q,hq,hiq⟩,hir⟩
    rcases List.mem_cons.mp (hp.mem_iff.mp hq) with rfl | hq
    · exact absurd hiq hir
    · exact ⟨q,hq,hiq⟩
  · rintro ⟨q,hq,hiq⟩
    exact ⟨⟨q,hp.mem_iff.mpr (List.mem_cons_of_mem r hq),hiq⟩,(hapart.1 q hq).symm i hiq⟩

end FirstFit

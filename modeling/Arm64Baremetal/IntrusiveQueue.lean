import Mathlib.Logic.Function.Basic
import Mathlib.Data.List.Nodup

/-!
Singly linked queues whose link is a field of the nodes themselves, so that all
queues over one heap share one `next`. A family of such queues stands for a family
of lists without common elements.
-/

set_option autoImplicit false

namespace IntrusiveQueue

structure Queue (α : Type*) where
  head : Option α
  tail : Option α
  deriving DecidableEq

variable {α : Type*} {next : α → Option α} {q : Queue α} {xs ys : List α} {t : α}

def Queue.empty : Queue α := ⟨none,none⟩

/-- The links from `h` on visit exactly the nodes of the list, and end. -/
def Linked (next : α → Option α) : Option α → List α → Prop
  | h, [] => h = none
  | h, a :: xs => h = some a ∧ Linked next (next a) xs

structure Represents (next : α → Option α) (q : Queue α) (xs : List α) : Prop where
  linked : Linked next q.head xs
  tail : q.tail = xs.getLast?
  nodup : xs.Nodup

theorem linked_congr {next' : α → Option α} (h : ∀ a ∈ xs, next' a = next a) {o : Option α}
    (hl : Linked next o xs) : Linked next' o xs := by
  induction xs generalizing o with
  | nil => exact hl
  | cons a xs ih =>
    refine ⟨hl.1,?_⟩
    rw [h a (by simp)]
    exact ih (fun b hb => h b (by simp [hb])) hl.2

theorem linked_unique {o : Option α} (h : Linked next o xs) (h' : Linked next o ys) : xs = ys := by
  induction xs generalizing o ys with
  | nil =>
    cases ys with
    | nil => rfl
    | cons b ys => exact absurd (h.symm.trans h'.1) (by simp)
  | cons a xs ih =>
    cases ys with
    | nil => exact absurd (h'.symm.trans h.1) (by simp)
    | cons b ys =>
      obtain rfl : a = b := Option.some.inj (h.1.symm.trans h'.1)
      rw [ih h.2 h'.2]

theorem linked_next {next' : α → Option α} {o o' : Option α} (h : Linked next o xs)
    (h' : Linked next' o' xs) : ∀ a ∈ xs, next a = next' a := by
  induction xs generalizing o o' with
  | nil => nofun
  | cons b xs ih =>
    intro a ha
    rcases List.mem_cons.mp ha with rfl | ha
    · cases xs with
      | nil => exact h.2.trans h'.2.symm
      | cons c xs => exact h.2.1.trans h'.2.1.symm
    · exact ih h.2 h'.2 a ha

def follow (next : α → Option α) : Nat → Option α → List α
  | 0, _ | _ + 1, none => []
  | n + 1, some a => a :: follow next n (next a)

theorem follow_of_linked {o : Option α} (hl : Linked next o xs) {n : Nat} (hn : xs.length ≤ n) :
    follow next n o = xs := by
  induction xs generalizing n o with
  | nil =>
    obtain rfl : o = none := hl
    cases n <;> rfl
  | cons a xs ih =>
    obtain ⟨rfl,hl⟩ := hl
    cases n with
    | zero => simp at hn
    | succ n => exact congrArg (List.cons a) (ih hl (Nat.le_of_succ_le_succ hn))

theorem linked_of_follow {o : Option α} (hw : ∀ n, xs.length ≤ n → follow next n o = xs) :
    Linked next o xs := by
  induction xs generalizing o with
  | nil =>
    have h := hw 1 (Nat.zero_le 1)
    cases o with
    | none => rfl
    | some a => simp [follow] at h
  | cons a xs ih =>
    have h := hw (xs.length + 1) (Nat.le_refl _)
    cases o with
    | none => simp [follow] at h
    | some b =>
      obtain rfl : b = a := List.head_eq_of_cons_eq h
      refine ⟨rfl,ih fun n hn => ?_⟩
      exact List.tail_eq_of_cons_eq (hw (n + 1) (Nat.succ_le_succ hn))

theorem linked_last {o : Option α} {a : α} (hl : Linked next o (xs ++ [a])) : next a = none := by
  induction xs generalizing o with
  | nil => exact hl.2
  | cons b xs ih => exact ih hl.2

theorem represents_empty : Represents next (Queue.empty : Queue α) [] := ⟨rfl,rfl,List.nodup_nil⟩

theorem Represents.congr {next' : α → Option α} (h : Represents next q xs)
    (hn : ∀ a ∈ xs, next' a = next a) : Represents next' q xs :=
  ⟨linked_congr hn h.linked,h.tail,h.nodup⟩

/-- A queue holds one list only. -/
theorem Represents.unique (h : Represents next q xs) (h' : Represents next q ys) : xs = ys :=
  linked_unique h.linked h'.linked

theorem Represents.head_eq (h : Represents next q xs) : q.head = xs.head? := by
  cases xs with
  | nil => exact h.linked
  | cons a xs => exact h.linked.1

theorem Represents.head_eq_none (h : Represents next q xs) : q.head = none ↔ xs = [] := by
  rw [h.head_eq,List.head?_eq_none_iff]

theorem Represents.tail_eq_none (h : Represents next q xs) : q.tail = none ↔ xs = [] := by
  rw [h.tail,List.getLast?_eq_none_iff]

theorem Represents.eq_empty (h : Represents next q []) : q = .empty := by
  obtain ⟨head,tail⟩ := q
  obtain rfl : head = none := h.head_eq_none.mpr rfl
  obtain rfl : tail = none := h.tail
  rfl

theorem Represents.next_tail (h : Represents next q xs) {l : α} (hl : q.tail = some l) :
    next l = none := by
  rw [h.tail] at hl
  obtain ⟨ys,rfl⟩ := List.getLast?_eq_some_iff.mp hl
  exact linked_last h.linked

variable [DecidableEq α]

def enqueue (next : α → Option α) (q : Queue α) (t : α) : (α → Option α) × Queue α :=
  let next := Function.update next t none
  match q.tail with
  | none => (next,⟨some t,some t⟩)
  | some l => (Function.update next l (some t),⟨q.head,some t⟩)

def dequeue (next : α → Option α) (q : Queue α) : Option α × (α → Option α) × Queue α :=
  match q.head with
  | none => (none,next,q)
  | some t => (some t,Function.update next t none,
      ⟨next t,if (next t).isNone then none else q.tail⟩)

theorem linked_concat {o : Option α} {a : α} (hn : (xs ++ [a]).Nodup)
    (hl : Linked next o (xs ++ [a])) (ht : t ∉ xs ++ [a]) (h0 : next t = none) :
    Linked (Function.update next a (some t)) o (xs ++ [a,t]) := by
  induction xs generalizing o with
  | nil =>
    have hta : t ≠ a := fun h => ht (by simp [h])
    refine ⟨hl.1,by simp,?_⟩
    rw [Function.update_of_ne hta,h0]
    rfl
  | cons b xs ih =>
    obtain ⟨hb,hn⟩ := List.nodup_cons.mp hn
    have hab : b ≠ a := fun h => hb (by simp [h])
    refine ⟨hl.1,?_⟩
    rw [Function.update_of_ne hab]
    exact ih hn hl.2 fun h => ht (List.mem_cons_of_mem b h)

theorem Represents.enqueue (h : Represents next q xs) (ht : t ∉ xs) :
    Represents (enqueue next q t).1 (enqueue next q t).2 (xs ++ [t]) := by
  unfold IntrusiveQueue.enqueue
  cases hq : q.tail with
  | none =>
    obtain rfl := h.tail_eq_none.mp hq
    exact ⟨⟨rfl,by simp [Linked]⟩,rfl,by simp⟩
  | some l =>
    have hl := hq
    rw [h.tail] at hl
    obtain ⟨ys,rfl⟩ := List.getLast?_eq_some_iff.mp hl
    have hne : ∀ a ∈ ys ++ [l], a ≠ t := by
      rintro a ha rfl
      exact ht ha
    have h0 : Linked (Function.update next t none) q.head (ys ++ [l]) :=
      linked_congr (fun a ha => Function.update_of_ne (hne a ha) _ _) h.linked
    refine ⟨?_,by simp,?_⟩
    · simpa using linked_concat h.nodup h0 ht (by simp)
    · exact List.Nodup.append h.nodup (by simp) (by simpa using ht)

theorem Represents.enqueue_next (h : Represents next q xs) {a : α} (ha : a ≠ t) (hx : a ∉ xs) :
    (IntrusiveQueue.enqueue next q t).1 a = next a := by
  unfold IntrusiveQueue.enqueue
  cases hq : q.tail with
  | none => exact Function.update_of_ne ha _ _
  | some l =>
    have hl : l ∈ xs := List.mem_of_getLast? (h.tail ▸ hq)
    have hal : a ≠ l := by
      rintro rfl
      exact hx hl
    simp only [Function.update_of_ne hal,Function.update_of_ne ha]

theorem dequeue_nil (h : Represents next q []) : dequeue next q = (none,next,q) := by
  have hq : q.head = none := h.head_eq_none.mpr rfl
  simp [dequeue,hq]

theorem Represents.dequeue_fst (h : Represents next q xs) : (dequeue next q).1 = xs.head? := by
  rw [← h.head_eq]
  unfold IntrusiveQueue.dequeue
  cases q.head <;> rfl

theorem Represents.dequeue (h : Represents next q (t :: xs)) :
    Represents (Function.update next t none) (dequeue next q).2.2 xs := by
  obtain ⟨hq,hl⟩ := h.linked
  obtain ⟨ht,hn⟩ := List.nodup_cons.mp h.nodup
  have hne : ∀ a ∈ xs, a ≠ t := by
    rintro a ha rfl
    exact ht ha
  simp only [IntrusiveQueue.dequeue,hq]
  refine ⟨linked_congr (fun a ha => Function.update_of_ne (hne a ha) _ _) hl,?_,hn⟩
  cases xs with
  | nil =>
    have h0 : next t = none := hl
    simp [h0]
  | cons b xs => simp [hl.1,h.tail]

theorem Represents.dequeue_next (h : Represents next q (t :: xs)) :
    (IntrusiveQueue.dequeue next q).2.1 = Function.update next t none := by
  simp only [IntrusiveQueue.dequeue,h.linked.1]

/-- Queues over one heap, none of which shares a node with another. -/
structure Family {ι : Type*} (next : α → Option α) (qs : ι → Queue α) (xs : ι → List α) :
    Prop where
  represents : ∀ i, Represents next (qs i) (xs i)
  apart : ∀ i j t, t ∈ xs i → t ∈ xs j → i = j

section Family

variable {ι : Type*} [DecidableEq ι] {qs : ι → Queue α} {ls : ι → List α}

theorem Family.enqueue (h : Family next qs ls) (i : ι) (ht : ∀ j, t ∉ ls j) :
    Family (enqueue next (qs i) t).1 (Function.update qs i (enqueue next (qs i) t).2)
      (Function.update ls i (ls i ++ [t])) where
  represents j := by
    by_cases hj : j = i
    · subst hj
      simpa using (h.represents j).enqueue (ht j)
    · rw [Function.update_of_ne hj,Function.update_of_ne hj]
      refine (h.represents j).congr fun a ha => (h.represents i).enqueue_next ?_ ?_
      · rintro rfl; exact ht j ha
      · exact fun hi => hj (h.apart j i a ha hi)
  apart j k a hj hk := by
    by_cases hji : j = i <;> by_cases hki : k = i
    · rw [hji,hki]
    · subst hji
      simp only [Function.update_self,Function.update_of_ne hki,List.mem_append,
        List.mem_singleton] at hj hk
      rcases hj with hj | rfl
      · exact h.apart j k a hj hk
      · exact absurd hk (ht k)
    · subst hki
      simp only [Function.update_self,Function.update_of_ne hji,List.mem_append,
        List.mem_singleton] at hj hk
      rcases hk with hk | rfl
      · exact h.apart j k a hj hk
      · exact absurd hj (ht j)
    · rw [Function.update_of_ne hji] at hj
      rw [Function.update_of_ne hki] at hk
      exact h.apart j k a hj hk

theorem Family.dequeue (h : Family next qs ls) {i : ι} (hx : ls i = t :: xs) :
    Family (Function.update next t none) (Function.update qs i (dequeue next (qs i)).2.2)
      (Function.update ls i xs) where
  represents j := by
    have hi := hx ▸ h.represents i
    by_cases hj : j = i
    · subst hj
      simpa using hi.dequeue
    · rw [Function.update_of_ne hj,Function.update_of_ne hj]
      refine (h.represents j).congr fun a ha => Function.update_of_ne ?_ _ _
      rintro rfl
      exact hj (h.apart j i a ha (by simp [hx]))
  apart j k a hj hk := by
    have hsub : ∀ l, a ∈ Function.update ls i xs l → a ∈ ls l := by
      intro l hl
      by_cases hli : l = i
      · subst hli
        rw [Function.update_self] at hl
        simp [hx,hl]
      · rwa [Function.update_of_ne hli] at hl
    exact h.apart j k a (hsub j hj) (hsub k hk)

omit [DecidableEq α] in
theorem Family.not_mem_dequeue (h : Family next qs ls) {i : ι} (hx : ls i = t :: xs) (j : ι) :
    t ∉ Function.update ls i xs j := by
  have hn := (h.represents i).nodup
  rw [hx] at hn
  by_cases hj : j = i
  · subst hj
    simpa using (List.nodup_cons.mp hn).1
  · rw [Function.update_of_ne hj]
    exact fun ht => hj (h.apart j i t ht (by simp [hx]))

omit [DecidableEq ι] in
theorem Family.update_next (h : Family next qs ls) (ht : ∀ j, t ∉ ls j) (o : Option α) :
    Family (Function.update next t o) qs ls where
  represents j := by
    refine (h.represents j).congr fun a ha => Function.update_of_ne ?_ _ _
    rintro rfl
    exact ht j ha
  apart := h.apart

omit [DecidableEq α] in
theorem Family.move (h : Family next qs ls) {i j : ι} (hij : i ≠ j) :
    Family next (Function.update (Function.update qs i (qs j)) j .empty)
      (Function.update (Function.update ls i (ls j)) j []) where
  represents k := by
    by_cases hk : k = j
    · subst hk
      simpa using represents_empty
    by_cases hki : k = i
    · subst hki
      simpa [hk] using h.represents j
    · simpa [hk,hki] using h.represents k
  apart k l a hak hal := by
    have hsub : ∀ m, a ∈ Function.update (Function.update ls i (ls j)) j [] m →
        m ≠ j ∧ (m = i ∧ a ∈ ls j ∨ m ≠ i ∧ a ∈ ls m) := by
      intro m hm
      by_cases hmj : m = j
      · subst hmj
        simp at hm
      by_cases hmi : m = i
      · subst hmi
        exact ⟨hmj,.inl ⟨rfl,by simpa [hmj] using hm⟩⟩
      · exact ⟨hmj,.inr ⟨hmi,by simpa [hmj,hmi] using hm⟩⟩
    obtain ⟨hkj,⟨rfl,hk⟩ | ⟨hki,hk⟩⟩ := hsub k hak <;>
      obtain ⟨hlj,⟨rfl,hl⟩ | ⟨hli,hl⟩⟩ := hsub l hal
    · rfl
    · exact absurd (h.apart _ _ a hl hk) hlj
    · exact absurd (h.apart _ _ a hk hl) hkj
    · exact h.apart _ _ a hk hl

end Family

end IntrusiveQueue

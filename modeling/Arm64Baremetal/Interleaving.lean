import Arm64Baremetal.Runs

/-!
Threads that interleave at single accesses to a shared state, each with a local state of its own.
An invariant of the shared state that every access keeps, whatever the others do in between, holds
in every interleaving, and a part of the shared state that one thread alone changes goes through
the accesses of that thread in order.
-/

set_option autoImplicit false

namespace Interleaving
open Runs

variable {ι α σ κ π : Type*}

/-- `todo` is what each thread has still to do. -/
structure Threads (ι α σ κ : Type*) where
  shared : σ
  own : ι → κ
  todo : ι → List α

section Step
variable [DecidableEq ι] (act : α → σ × κ → σ × κ)

def threadStep (t : Threads ι α σ κ) (i : ι) : Threads ι α σ κ :=
  match t.todo i with
  | [] => t
  | a :: as =>
    { shared := (act a (t.shared,t.own i)).1
      own := Function.update t.own i (act a (t.shared,t.own i)).2
      todo := Function.update t.todo i as }

end Step

section Code
variable (act : α → σ × κ → σ × κ) (I : σ → Prop) (Q : κ → Prop)

/-- A thread that comes to `R` keeps the shared invariant `I` and its own condition `Q` at each
access, from whatever shared state with `I` the access finds. -/
def Keeps (R : κ → Prop) : List α → κ → Prop
  | [], l => Q l ∧ R l
  | a :: as, l => Q l ∧ ∀ s, I s → I (act a (s,l)).1 ∧ Keeps R as (act a (s,l)).2

variable {act I Q} {R R' : κ → Prop} {as bs : List α} {l : κ}

theorem Keeps.own (h : Keeps act I Q R as l) : Q l := by
  cases as with
  | nil => exact h.1
  | cons a as => exact h.1

theorem Keeps.append (h : Keeps act I Q R as l) (hnext : ∀ l', R l' → Keeps act I Q R' bs l') :
    Keeps act I Q R' (as ++ bs) l := by
  induction as generalizing l with
  | nil => exact hnext l h.2
  | cons a as ih =>
    refine ⟨h.1,fun s hs => ?_⟩
    obtain ⟨hI,hrest⟩ := h.2 s hs
    exact ⟨hI,ih hrest⟩

theorem keeps_flatMap {γ : Type*} {code : γ → List α} {cs : List γ}
    (h : ∀ c ∈ cs, ∀ l, Q l → Keeps act I Q Q (code c) l) (hl : Q l) :
    Keeps act I Q Q (cs.flatMap code) l := by
  induction cs generalizing l with
  | nil => exact ⟨hl,hl⟩
  | cons c cs ih =>
    rw [List.flatMap_cons]
    exact (h c List.mem_cons_self l hl).append fun l' hl' =>
      ih (fun c' hc' => h c' (List.mem_cons_of_mem c hc')) hl'

theorem Keeps.exec {s : σ} (hs : I s) (h : Keeps act I Q R (as ++ bs) l) :
    I (exec (fun x a => act a x) (s,l) as).1 ∧
      Keeps act I Q R bs (exec (fun x a => act a x) (s,l) as).2 := by
  induction as generalizing s l with
  | nil => exact ⟨hs,h⟩
  | cons a as ih =>
    obtain ⟨hI,hrest⟩ := h.2 s hs
    exact ih hI hrest

end Code

section Runs
variable [DecidableEq ι] {act : α → σ × κ → σ × κ} {I : σ → Prop} {Q : κ → Prop}
  {R : κ → Prop} {t : Threads ι α σ κ}

structure ThreadsKeep (act : α → σ × κ → σ × κ) (I : σ → Prop) (Q R : κ → Prop)
    (t : Threads ι α σ κ) : Prop where
  shared : I t.shared
  threads : ∀ i, Keeps act I Q R (t.todo i) (t.own i)

theorem ThreadsKeep.step (h : ThreadsKeep act I Q R t) (i : ι) :
    ThreadsKeep act I Q R (threadStep act t i) := by
  have hi := h.threads i
  unfold threadStep
  split
  · exact h
  · rename_i a as htodo
    rw [htodo] at hi
    obtain ⟨hI,hrest⟩ := hi.2 t.shared h.shared
    refine ⟨hI,fun j => ?_⟩
    by_cases hj : j = i
    · subst hj
      simp only [Function.update_self]
      exact hrest
    · simp only [Function.update_of_ne hj]
      exact h.threads j

/-- The invariant rule for interleavings. -/
theorem ThreadsKeep.run (h : ThreadsKeep act I Q R t) (is : List ι) :
    ThreadsKeep act I Q R (exec (threadStep act) t is) :=
  exec_keeps (fun _ i ht => ht.step i) h is

/-- A part of the shared state that thread `i` alone changes, and by nothing else than what the
part was. -/
structure OwnPart (act : α → σ × κ → σ × κ) (part : σ → π) (i : ι) (t : Threads ι α σ κ) :
    Prop where
  mine : ∀ a ∈ t.todo i, ∀ x y : σ × κ, part x.1 = part y.1 → part (act a x).1 = part (act a y).1
  others : ∀ j, j ≠ i → ∀ a ∈ t.todo j, ∀ x : σ × κ, part (act a x).1 = part x.1

variable {part : σ → π} {i : ι}

theorem OwnPart.step (h : OwnPart act part i t) {x : σ × κ} (hx : part t.shared = part x.1)
    (j : ι) : OwnPart act part i (threadStep act t j) ∧
      ∃ y : σ × κ, part (threadStep act t j).shared = part y.1 ∧
        exec (fun x a => act a x) y ((threadStep act t j).todo i) =
          exec (fun x a => act a x) x (t.todo i) := by
  unfold threadStep
  split
  · exact ⟨h,x,hx,rfl⟩
  · rename_i a as htodo
    have hsub : ∀ k, ∀ b ∈ Function.update t.todo j as k, b ∈ t.todo k := by
      intro k b hb
      by_cases hk : k = j
      · subst hk
        rw [Function.update_self] at hb
        rw [htodo]
        exact List.mem_cons_of_mem a hb
      · rwa [Function.update_of_ne hk] at hb
    refine ⟨⟨fun b hb => h.mine b (hsub i b hb),fun k hk b hb => h.others k hk b (hsub k b hb)⟩,?_⟩
    have ha : a ∈ t.todo j := htodo ▸ List.mem_cons_self
    by_cases hj : j = i
    · subst hj
      refine ⟨act a x,h.mine a ha (t.shared,t.own j) x hx,?_⟩
      dsimp only
      rw [Function.update_self,htodo,exec_cons]
    · refine ⟨x,(h.others j hj a ha (t.shared,t.own j)).trans hx,?_⟩
      dsimp only
      rw [Function.update_of_ne (Ne.symm hj)]

theorem OwnPart.run (h : OwnPart act part i t) {x : σ × κ} (hx : part t.shared = part x.1)
    (is : List ι) (hdone : (exec (threadStep act) t is).todo i = []) :
    part (exec (threadStep act) t is).shared =
      part (exec (fun x a => act a x) x (t.todo i)).1 := by
  induction is generalizing t x with
  | nil =>
    rw [exec_nil] at hdone
    rw [hdone,exec_nil,exec_nil,hx]
  | cons j is ih =>
    obtain ⟨hstep,y,hy,heq⟩ := h.step hx j
    rw [exec_cons] at hdone ⊢
    rw [ih hstep hy hdone,heq]

end Runs

end Interleaving

import Mathlib.Data.List.Basic
import Mathlib.Logic.Function.Basic

/-!
Caches of a translation, one for each core. A cache may take up a translation whenever there
is one, and keeps it until it is invalidated, on all cores at once.
-/

set_option autoImplicit false

namespace TranslationCache

structure Entry (π δ : Type*) where
  page : π
  desc : δ
  deriving DecidableEq

abbrev Caches (κ π δ : Type*) := κ → List (Entry π δ)

variable {κ π δ : Type*}

def fill [DecidableEq κ] (c : Caches κ π δ) (core : κ) (page : π) (desc : δ) : Caches κ π δ :=
  Function.update c core (⟨page,desc⟩ :: c core)

def invalidate (c : Caches κ π δ) (hit : π → Bool) : Caches κ π δ := fun core =>
  (c core).filter fun e => !hit e.page

/-- What a cache holds is the translation, but for pages that are being changed. -/
def UpToDate (translate : π → Option δ) (busy : π → Prop) (c : Caches κ π δ) : Prop :=
  ∀ core, ∀ e ∈ c core, ¬ busy e.page → translate e.page = some e.desc

def Absent (c : Caches κ π δ) (page : π) : Prop := ∀ core, ∀ e ∈ c core, e.page ≠ page

variable {c : Caches κ π δ} {translate translate' : π → Option δ} {busy busy' : π → Prop}

section Fill
variable [DecidableEq κ] {core : κ} {page : π} {desc : δ}

theorem mem_fill {core' : κ} {e : Entry π δ} (h : e ∈ fill c core page desc core') :
    e = ⟨page,desc⟩ ∨ e ∈ c core' := by
  unfold fill at h
  by_cases hc : core' = core
  · subst hc
    rw [Function.update_self] at h
    exact List.mem_cons.mp h
  · rw [Function.update_of_ne hc] at h
    exact .inr h

theorem UpToDate.fill (h : UpToDate translate busy c) (ht : translate page = some desc)
    (core : κ) : UpToDate translate busy (fill c core page desc) := by
  intro core' e he hb
  cases mem_fill he with
  | inl hnew => rw [hnew]; exact ht
  | inr hold => exact h core' e hold hb

theorem Absent.fill {page' : π} (h : Absent c page') (hne : page ≠ page') (core : κ) (desc : δ) :
    Absent (fill c core page desc) page' := by
  intro core' e he
  cases mem_fill he with
  | inl hnew => rw [hnew]; exact hne
  | inr hold => exact h core' e hold

end Fill

theorem mem_invalidate {hit : π → Bool} {core : κ} {e : Entry π δ} :
    e ∈ invalidate c hit core ↔ e ∈ c core ∧ hit e.page = false := by
  simp [invalidate]

theorem UpToDate.invalidate (h : UpToDate translate busy c) (hit : π → Bool) :
    UpToDate translate busy (invalidate c hit) := fun core e he =>
  h core e (mem_invalidate.mp he).1

theorem Absent.invalidate {page : π} (h : Absent c page) (hit : π → Bool) :
    Absent (invalidate c hit) page := fun core e he => h core e (mem_invalidate.mp he).1

theorem absent_of_hit {hit : π → Bool} {page : π} (h : hit page = true) (c : Caches κ π δ) :
    Absent (invalidate c hit) page := by
  rintro core e he rfl
  rw [(mem_invalidate.mp he).2] at h
  exact Bool.false_ne_true h

/-- A translation may be changed where it is busy, and given where there is none. -/
theorem UpToDate.change (h : UpToDate translate busy c) (hb : ∀ p, busy p → busy' p)
    (ht : ∀ p d, ¬ busy' p → translate p = some d → translate' p = some d) :
    UpToDate translate' busy' c := fun core e he hn =>
  ht e.page e.desc hn (h core e he fun hp => hn (hb e.page hp))

theorem UpToDate.settle (h : UpToDate translate busy c) (ha : ∀ p, busy p → Absent c p) :
    UpToDate translate (fun _ => False) c := fun core e he _ =>
  h core e he fun hp => ha e.page hp core e he rfl

theorem upToDate_empty (translate : π → Option δ) (busy : π → Prop) :
    UpToDate translate busy (fun _ : κ => []) := fun _ _ he => nomatch he

end TranslationCache

import Arm64Baremetal.Runs

/-!
Machines with fields that each step sets or leaves alone: after a run, a field holds what the
last step that set it gave it, or what it held before.
-/

set_option autoImplicit false

namespace LastSet
open Runs

variable {σ ε υ ω : Type*} {sets : ε → Option υ} {es : List ε}

/-- What the last event that sets a field gives it. -/
def last (sets : ε → Option υ) (es : List ε) : Option υ := es.reverse.findSome? sets

theorem last_snoc (e : ε) : last sets (es ++ [e]) = (sets e).or (last sets es) := by
  rw [last,List.reverse_concat,List.findSome?_cons]
  cases sets e <;> rfl

theorem last_eq_none_iff : last sets es = none ↔ ∀ e ∈ es, sets e = none := by
  simp [last]

theorem exists_of_last {v : υ} (h : last sets es = some v) : ∃ e ∈ es, sets e = some v := by
  obtain ⟨e,he,hv⟩ := List.exists_of_findSome?_eq_some h
  exact ⟨e,List.mem_reverse.mp he,hv⟩

theorem last_map (f : υ → ω) : last (fun e => (sets e).map f) es = (last sets es).map f := by
  simp only [last,List.map_findSome?]
  rfl

theorem exec_last {step : σ → ε → σ} {P : σ → ε → Prop} {field : σ → υ}
    (hstep : ∀ s e, P s e → field (step s e) = (sets e).getD (field s)) {s : σ}
    (hp : Along step P s es) : field (exec step s es) = (last sets es).getD (field s) := by
  refine exec_history (I := fun es t => field t = (last sets es).getD (field s)) rfl ?_ hp
  intro pre e ih he
  rw [hstep _ e he,ih,last_snoc,Option.getD_or]

end LastSet

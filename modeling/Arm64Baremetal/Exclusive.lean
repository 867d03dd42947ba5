import Mathlib.Logic.Function.Basic

/-!
A word of memory with an exclusive monitor for each core. A load-exclusive sets the monitor of
its core and a store clears all of them; a store-exclusive stores while its monitor is set, and
may fail even then.
-/

set_option autoImplicit false

namespace Exclusive

structure Cell (ι υ : Type*) where
  value : υ
  monitor : ι → Bool

variable {ι υ : Type*}

def Cell.store (v : υ) (c : Cell ι υ) : Cell ι υ := { c with value := v, monitor := fun _ => false }

/-- As long as its monitor is set, core `i` may rely on the word being `v`. -/
def Cell.Watches (c : Cell ι υ) (i : ι) (v : υ) : Prop := c.monitor i = true → c.value = v

variable [DecidableEq ι] {c c' : Cell ι υ} {i j : ι} {v w : υ}

def Cell.setMonitor (i : ι) (b : Bool) (c : Cell ι υ) : Cell ι υ :=
  { c with monitor := Function.update c.monitor i b }

/-- The word that is loaded is `c.value`. -/
def Cell.loadExclusive (i : ι) (c : Cell ι υ) : Cell ι υ := c.setMonitor i true

/-- Whether the word was stored, and what it leaves. -/
def Cell.storeExclusive (i : ι) (v : υ) (fails : Bool) (c : Cell ι υ) : Bool × Cell ι υ :=
  if c.monitor i = true ∧ fails = false then (true,c.store v) else (false,c.setMonitor i false)

/-- What core `i` can do without storing. -/
structure Cell.SameFor (c c' : Cell ι υ) (i : ι) : Prop where
  value : c'.value = c.value
  monitor : ∀ j, j ≠ i → c'.monitor j = c.monitor j

omit [DecidableEq ι] in
theorem Cell.SameFor.refl (c : Cell ι υ) (i : ι) : c.SameFor c i := ⟨rfl,fun _ _ => rfl⟩

theorem sameFor_setMonitor (c : Cell ι υ) (i : ι) (b : Bool) : c.SameFor (c.setMonitor i b) i :=
  ⟨rfl,fun _ hj => Function.update_of_ne hj _ _⟩

theorem watches_loadExclusive (c : Cell ι υ) (i : ι) : (c.loadExclusive i).Watches i c.value :=
  fun _ => rfl

omit [DecidableEq ι] in
theorem watches_store (c : Cell ι υ) (i : ι) (v w : υ) : (c.store v).Watches i w :=
  fun h => Bool.noConfusion h

omit [DecidableEq ι] in
theorem Cell.Watches.other (h : c.Watches j v) (hs : c.SameFor c' i) (hj : j ≠ i) :
    c'.Watches j v := fun hm => hs.value.trans (h ((hs.monitor j hj).symm.trans hm))

theorem storeExclusive_cases (i : ι) (v : υ) (fails : Bool) (c : Cell ι υ) :
    ((c.monitor i = true ∧ fails = false) ∧ c.storeExclusive i v fails = (true,c.store v)) ∨
      (¬ (c.monitor i = true ∧ fails = false) ∧
        c.storeExclusive i v fails = (false,c.setMonitor i false)) := by
  by_cases h : c.monitor i = true ∧ fails = false
  · exact .inl ⟨h,if_pos h⟩
  · exact .inr ⟨h,if_neg h⟩

end Exclusive

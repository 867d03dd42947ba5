import Arm64Baremetal.El3Frame
import Mathlib.Data.List.FinRange
import Mathlib.Data.List.Nodup

set_option autoImplicit false

namespace Arm64

/-- Doublewords by address. A frame is only accessed at multiples of 8 from its base. -/
abbrev Memory := Word → Word

structure FpRegs where
  v : VRegs
  fpsr : Word
  fpcr : Word

structure El1Regs where
  x : GpRegs
  sp : Word
  pc : Word
  pstate : Word
  fp : FpRegs

/-- An IRQ is taken at EL1 with SP_EL1, and is not masked. -/
def El1Regs.TakesIrq (r : El1Regs) : Prop :=
  r.pstate &&& 0xF = spsrMEl1h ∧ r.pstate &&& irqMask = 0

instance (r : El1Regs) : Decidable r.TakesIrq := inferInstanceAs (Decidable (_ ∧ _))

section Words
variable {base : Word} {l : List (Word × Word)} {mem : Memory}

/-- Stores of the values in a list at their offsets from `base`. -/
def storeWords (base : Word) (l : List (Word × Word)) (mem : Memory) : Memory :=
  l.foldl (fun mem p => Function.update mem (base + p.1) p.2) mem

theorem storeWords_of_not_mem {o : Word} (h : o ∉ l.map Prod.fst) :
    storeWords base l mem (base + o) = mem (base + o) := by
  induction l generalizing mem with
  | nil => rfl
  | cons p l ih =>
    simp only [List.map_cons,List.mem_cons,not_or] at h
    refine (ih h.2).trans (Function.update_of_ne ?_ _ _)
    simpa using h.1

theorem storeWords_of_mem {o w : Word} (hn : (l.map Prod.fst).Nodup) (h : (o,w) ∈ l) :
    storeWords base l mem (base + o) = w := by
  induction l generalizing mem with
  | nil => simp at h
  | cons p l ih =>
    simp only [List.map_cons,List.nodup_cons] at hn
    rcases List.mem_cons.mp h with rfl | h
    · exact (storeWords_of_not_mem hn.1).trans (Function.update_self ..)
    · exact ih hn.2 h

end Words

namespace KernelVector

def frameSize : Word := 288

def wordOffset (i : Nat) : Word := BitVec.ofNat 64 (8 * i)

/-- What SAVE_CONTEXT stores, by its offset from the new sp. No FP or SIMD register is
among it. -/
def frameWords (r : El1Regs) (esr far : Word) : List (Word × Word) :=
  (List.finRange 31).map (fun i => (wordOffset i.val,r.x i)) ++
    [(248,r.pstate),(256,r.pc),(264,esr),(272,far)]

theorem frameWords_nodup (r : El1Regs) (esr far : Word) :
    ((frameWords r esr far).map Prod.fst).Nodup := by
  have h : (frameWords r esr far).map Prod.fst = (List.range 35).map wordOffset := rfl
  rw [h]
  decide

/-- The IRQ exception and SAVE_CONTEXT. -/
def saveContext (r : El1Regs) (esr far : Word) (mem : Memory) : Memory :=
  storeWords (r.sp - frameSize) (frameWords r esr far) mem

/-- RESTORE_CONTEXT and its `eret`. -/
def restoreContext (fp : FpRegs) (sp : Word) (mem : Memory) : El1Regs where
  x i := mem (sp + wordOffset i.val)
  sp := sp + frameSize
  pc := mem (sp + 256)
  pstate := mem (sp + 248)
  fp := fp

def SameFrame (mem mem' : Memory) (f : Word) : Prop :=
  ∀ i : Fin 35, mem' (f + wordOffset i.val) = mem (f + wordOffset i.val)

instance (mem mem' : Memory) (f : Word) : Decidable (SameFrame mem mem' f) :=
  inferInstanceAs (Decidable (∀ _ : Fin 35, _))

theorem SameFrame.restoreContext {mem mem' : Memory} {f : Word} (h : SameFrame mem mem' f)
    (fp : FpRegs) : restoreContext fp f mem' = restoreContext fp f mem := by
  have hx : ∀ i : Fin 31, mem' (f + wordOffset i.val) = mem (f + wordOffset i.val) :=
    fun i => h ⟨i.val,by omega⟩
  have hpc : mem' (f + 256) = mem (f + 256) := h 32
  have hpstate : mem' (f + 248) = mem (f + 248) := h 31
  simp only [KernelVector.restoreContext,hx,hpc,hpstate]

/-- What a task gets back from its frame is all it had, except for FP and SIMD. -/
theorem restoreContext_saveContext (r : El1Regs) (esr far : Word) (mem : Memory)
    (fp : FpRegs) :
    restoreContext fp (r.sp - frameSize) (saveContext r esr far mem) = { r with fp := fp } := by
  have hload : ∀ o w, (o,w) ∈ frameWords r esr far →
      saveContext r esr far mem (r.sp - frameSize + o) = w :=
    fun o w => storeWords_of_mem (frameWords_nodup r esr far)
  have hx : ∀ i : Fin 31, saveContext r esr far mem (r.sp - frameSize + wordOffset i.val) = r.x i :=
    fun i => hload _ _ (List.mem_append_left _ (List.mem_map_of_mem (List.mem_finRange i)))
  have hpc : saveContext r esr far mem (r.sp - frameSize + 256) = r.pc :=
    hload _ _ (by simp [frameWords])
  have hpstate : saveContext r esr far mem (r.sp - frameSize + 248) = r.pstate :=
    hload _ _ (by simp [frameWords])
  simp only [restoreContext,hx,hpc,hpstate,BitVec.sub_add_cancel]

end KernelVector

end Arm64

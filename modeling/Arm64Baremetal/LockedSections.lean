import Arm64Baremetal.Commands
import Arm64Baremetal.KernelSpinlock

/-!
Code between spin_lock and spin_unlock, on any number of cores that take turns at each
instruction of the two functions and at each statement of the code.
-/

set_option autoImplicit false

namespace Arm64.Spinlock
open Runs Commands

/-- What a core has called that takes the lock, and what is left of it. -/
structure Section (κ lcl sh : Type*) where
  call : κ
  rest : Cmd (lcl × sh)
  locals : lcl

/-- `taken` are the calls that spin_lock has returned to, in that order. -/
structure Sections (ι κ lcl sh : Type*) where
  spin : State ι
  shared : sh
  current : ι → Option (Section κ lcl sh)
  taken : List (ι × κ)

/-- `turn` is the next statement of core `i` under the lock, and after the last one its call of
spin_unlock. -/
inductive SectionEvent (ι κ : Type*) where
  | insn (i : ι) (fails : Bool)
  | call (i : ι) (k : κ)
  | turn (i : ι) (regs : Regs) (monitor : Bool)
  | other (i : ι) (regs : Regs) (monitor : Bool)

variable {ι κ lcl sh : Type*}

def Sections.start (regs : ι → Regs) (monitor : ι → Bool) (s₀ : sh) : Sections ι κ lcl sh where
  spin := .start regs monitor
  shared := s₀
  current _ := none
  taken := []

variable [DecidableEq ι]

section Step
variable (code : ι → κ → Cmd (lcl × sh)) (l₀ : lcl)

def Sections.turn (i : ι) (regs : Regs) (monitor : Bool) (x : Section κ lcl sh)
    (m : Sections ι κ lcl sh) : Sections ι κ lcl sh :=
  match x.rest.step (x.locals,m.shared) with
  | some (c,l,s) =>
    { m with
      spin := step m.spin (.other i regs monitor)
      shared := s
      current := Function.update m.current i (some { x with rest := c, locals := l }) }
  | none => { m with spin := step m.spin (.call i) }

def sectionStep (m : Sections ι κ lcl sh) : SectionEvent ι κ → Sections ι κ lcl sh
  | .insn i fails =>
    { m with
      spin := step m.spin (.insn i fails)
      taken := m.taken ++ if (m.spin.cores i).place = .spinLock 7 then
        (m.current i).toList.map fun x => (i,x.call) else [] }
  | .call i k =>
    match (m.spin.cores i).place with
    | .outside =>
      { m with
        spin := step m.spin (.call i)
        current := Function.update m.current i (some ⟨k,code i k,l₀⟩) }
    | _ => m
  | .turn i regs monitor =>
    match (m.spin.cores i).place,m.current i with
    | .critical,some x => m.turn i regs monitor x
    | _,_ => m
  | .other i regs monitor =>
    match (m.spin.cores i).place with
    | .outside => { m with spin := step m.spin (.other i regs monitor) }
    | _ => m

/-- A call of core `i` from its first statement to its last, with nothing in between. -/
def Alone (p : ι × κ) (s s' : sh) : Prop := ∃ l', Ends (code p.1 p.2) (l₀,s) (l',s')

/-- Core `i` is between two of its statements: the calls before were done by themselves, and then
only its own statements. -/
def Midway (s₀ : sh) (m : Sections ι κ lcl sh) (i : ι) : Prop :=
  ∃ x ks t, m.current i = some x ∧ m.taken = ks ++ [(i,x.call)] ∧ Chain (Alone code l₀) ks s₀ t ∧
    Upto (code i x.call,(l₀,t)) (x.rest,(x.locals,m.shared))

structure SectionsInv (s₀ : sh) (m : Sections ι κ lcl sh) : Prop where
  owner : ∃ owner, Inv owner m.spin
  called : ∀ i pc, (m.spin.cores i).place = .spinLock pc →
    ∃ k, m.current i = some ⟨k,code i k,l₀⟩
  midway : ∀ i, (m.spin.cores i).place = .critical → Midway code l₀ s₀ m i
  between : (∀ i, (m.spin.cores i).place ≠ .critical) →
    Chain (Alone code l₀) m.taken s₀ m.shared

end Step

section Invariant
variable {code : ι → κ → Cmd (lcl × sh)} {l₀ : lcl} {s₀ : sh} {m m' : Sections ι κ lcl sh} {i : ι}
  {regs : Regs} {monitor : Bool} {x : Section κ lcl sh}

omit [DecidableEq ι] in
theorem Inv.holder {owner : Option ι} {s : State ι} (h : Inv owner s) {i j : ι}
    (hi : (s.cores i).Holds) (hj : (s.cores j).Holds) : j = i :=
  Option.some.inj (((h.holds j).mp hj).symm.trans ((h.holds i).mp hi))

omit [DecidableEq ι] in
theorem holds_of_critical {k : Core} (h : k.place = .critical) : k.Holds := .inr (.inr (.inl h))

omit [DecidableEq ι] in
theorem holds_of_ret {k : Core} (h : k.place = .spinLock 7) : k.Holds := .inr (.inl h)

theorem SectionsInv.quiet (h : SectionsInv code l₀ s₀ m) {e : Event ι}
    (hspin : m'.spin = step m.spin e) (hshared : m'.shared = m.shared) (htaken : m'.taken = m.taken)
    (hcurrent : ∀ j, j ≠ e.core → m'.current j = m.current j)
    (hbefore : (m.spin.cores e.core).place ≠ .critical)
    (hafter : (m'.spin.cores e.core).place ≠ .critical)
    (hcalled : ∀ pc, (m'.spin.cores e.core).place = .spinLock pc →
      ∃ k, m'.current e.core = some ⟨k,code e.core k,l₀⟩) : SectionsInv code l₀ s₀ m' := by
  have hother {j : ι} (hj : j ≠ e.core) : m'.spin.cores j = m.spin.cores j := by
    rw [hspin]
    exact cores_step hj
  obtain ⟨owner,howner⟩ := h.owner
  obtain ⟨owner',howner',-⟩ := howner.step e
  refine ⟨⟨owner',hspin ▸ howner'⟩,fun j pc hp => ?_,fun j hp => ?_,fun hno => ?_⟩
  · by_cases hj : j = e.core
    · subst hj
      exact hcalled pc hp
    · rw [hother hj] at hp
      rw [hcurrent j hj]
      exact h.called j pc hp
  · have hj : j ≠ e.core := by
      rintro rfl
      exact hafter hp
    rw [hother hj] at hp
    unfold Midway
    rw [hcurrent j hj,hshared,htaken]
    exact h.midway j hp
  · rw [hshared,htaken]
    refine h.between fun j => ?_
    by_cases hj : j = e.core
    · exact hj ▸ hbefore
    · rw [← hother hj]
      exact hno j

theorem SectionsInv.ret (h : SectionsInv code l₀ s₀ m) {fails : Bool}
    (hp : (m.spin.cores i).place = .spinLock 7) :
    SectionsInv code l₀ s₀ (sectionStep code l₀ m (.insn i fails)) := by
  obtain ⟨owner,howner⟩ := h.owner
  obtain ⟨owner',howner',-⟩ := howner.step (.insn i fails)
  obtain ⟨k,hk⟩ := h.called i 7 hp
  have hno : ∀ j, (m.spin.cores j).place ≠ .critical := by
    intro j hj
    obtain rfl := howner.holder (holds_of_ret hp) (holds_of_critical hj)
    exact nomatch hp.symm.trans hj
  have hcritical := place_ret fails hp
  have hother {j : ι} (hj : j ≠ i) :
      (step m.spin (.insn i fails)).cores j = m.spin.cores j := cores_step hj
  have htaken : (sectionStep code l₀ m (.insn i fails)).taken = m.taken ++ [(i,k)] := by
    simp only [sectionStep,if_pos hp,hk]
    rfl
  refine ⟨⟨owner',howner'⟩,fun j pc hpj => ?_,fun j hpj => ?_,fun hall => absurd hcritical (hall i)⟩
  · have hj : j ≠ i := by
      rintro rfl
      exact nomatch hcritical.symm.trans hpj
    exact h.called j pc ((congrArg Core.place (hother hj)).symm.trans hpj)
  · have hj : j = i := by
      by_contra hj
      exact hno j ((congrArg Core.place (hother hj)).symm.trans hpj)
    subst hj
    exact ⟨_,m.taken,m.shared,hk,htaken,h.between hno,.refl _ _⟩

theorem SectionsInv.statement (h : SectionsInv code l₀ s₀ m)
    (hp : (m.spin.cores i).place = .critical) (hx : m.current i = some x) {c : Cmd (lcl × sh)}
    {l : lcl} {s : sh} (hstep : x.rest.step (x.locals,m.shared) = some (c,(l,s))) :
    SectionsInv code l₀ s₀ (m.turn i regs monitor x) := by
  obtain ⟨owner,howner⟩ := h.owner
  obtain ⟨owner',howner',-⟩ := howner.step (.other i regs monitor)
  have hplace := (place_other regs monitor (.inr hp)).trans hp
  have hother {j : ι} (hj : j ≠ i) :
      (step m.spin (.other i regs monitor)).cores j = m.spin.cores j := cores_step hj
  have halone {j : ι} (hpj : (m.spin.cores j).place = .critical) : j = i :=
    howner.holder (holds_of_critical hp) (holds_of_critical hpj)
  simp only [Sections.turn,hstep]
  refine ⟨⟨owner',howner'⟩,fun j pc hpj => ?_,fun j hpj => ?_,fun hall => absurd hplace (hall i)⟩
  · have hj : j ≠ i := by
      rintro rfl
      exact nomatch hplace.symm.trans hpj
    obtain ⟨k,hk⟩ := h.called j pc ((congrArg Core.place (hother hj)).symm.trans hpj)
    exact ⟨k,(Function.update_of_ne hj _ _).trans hk⟩
  · have hj : j = i := by
      by_contra hj
      exact hj (halone ((congrArg Core.place (hother hj)).symm.trans hpj))
    subst hj
    obtain ⟨y,ks,t,hy,htaken,hbefore,hupto⟩ := h.midway j hp
    obtain rfl := Option.some.inj (hx.symm.trans hy)
    refine ⟨_,ks,t,Function.update_self ..,htaken,hbefore,?_⟩
    exact hupto.trans ⟨1,Cmd.next_of_step hstep⟩

theorem SectionsInv.done (h : SectionsInv code l₀ s₀ m)
    (hp : (m.spin.cores i).place = .critical) (hx : m.current i = some x)
    (hstep : x.rest.step (x.locals,m.shared) = none) :
    SectionsInv code l₀ s₀ (m.turn i regs monitor x) := by
  obtain ⟨owner,howner⟩ := h.owner
  obtain ⟨owner',howner',-⟩ := howner.step (.call i)
  have hplace := place_done hp
  have hother {j : ι} (hj : j ≠ i) : (step m.spin (.call i)).cores j = m.spin.cores j :=
    cores_step hj
  have halone {j : ι} (hpj : (m.spin.cores j).place = .critical) : j = i :=
    howner.holder (holds_of_critical hp) (holds_of_critical hpj)
  simp only [Sections.turn,hstep]
  refine ⟨⟨owner',howner'⟩,fun j pc hpj => ?_,fun j hpj => ?_,fun _ => ?_⟩
  · have hj : j ≠ i := by
      rintro rfl
      exact nomatch hplace.symm.trans hpj
    exact h.called j pc ((congrArg Core.place (hother hj)).symm.trans hpj)
  · by_cases hj : j = i
    · subst hj
      exact nomatch hplace.symm.trans hpj
    · exact absurd (halone ((congrArg Core.place (hother hj)).symm.trans hpj)) hj
  · obtain ⟨y,ks,t,hy,htaken,hbefore,hupto⟩ := h.midway i hp
    obtain rfl := Option.some.inj (hx.symm.trans hy)
    rw [Cmd.step_eq_none.mp hstep] at hupto
    rw [htaken]
    exact .snoc hbefore ⟨x.locals,hupto.ends⟩

theorem SectionsInv.step (h : SectionsInv code l₀ s₀ m) (e : SectionEvent ι κ) :
    SectionsInv code l₀ s₀ (sectionStep code l₀ m e) := by
  cases e with
  | insn i fails =>
    by_cases hp7 : (m.spin.cores i).place = .spinLock 7
    · exact h.ret hp7
    have htaken : (sectionStep code l₀ m (.insn i fails)).taken = m.taken := by
      simp only [sectionStep,if_neg hp7,List.append_nil]
    cases hp : (m.spin.cores i).place with
    | spinLock pc =>
      obtain ⟨pc',hplace⟩ := place_spinLock fails hp fun hpc => hp7 (hpc ▸ hp)
      refine h.quiet (e := .insn i fails) rfl rfl htaken (fun _ _ => rfl) ?_ ?_ fun _ _ =>
        h.called i pc hp
      · exact fun hc => nomatch hp.symm.trans hc
      · exact fun hc => nomatch hplace.symm.trans hc
    | spinUnlock pc =>
      have hplace := place_spinUnlock fails hp
      refine h.quiet (e := .insn i fails) rfl rfl htaken (fun _ _ => rfl) ?_ ?_ fun pc' hpc' => ?_
      · exact fun hc => nomatch hp.symm.trans hc
      · rintro hc
        rcases hplace with hplace | ⟨_,hplace⟩ <;> exact nomatch hplace.symm.trans hc
      · rcases hplace with hplace | ⟨_,hplace⟩ <;> exact nomatch hplace.symm.trans hpc'
    | outside =>
      simp only [sectionStep,insn_outside fails (.inl hp),if_neg hp7,List.append_nil]
      exact h
    | critical =>
      simp only [sectionStep,insn_outside fails (.inr hp),if_neg hp7,List.append_nil]
      exact h
  | call i k =>
    simp only [sectionStep]
    split
    next hp =>
      have hplace := place_call hp
      refine h.quiet (e := .call i) rfl rfl rfl (fun j hj => Function.update_of_ne hj _ _) ?_ ?_
        fun _ _ => ⟨k,Function.update_self ..⟩
      · exact fun hc => nomatch hp.symm.trans hc
      · exact fun hc => nomatch hplace.symm.trans hc
    next => exact h
  | turn i regs monitor =>
    simp only [sectionStep]
    split
    next x hp hx =>
      cases hstep : x.rest.step (x.locals,m.shared) with
      | none => exact h.done hp hx hstep
      | some r =>
        obtain ⟨c,l,s⟩ := r
        exact h.statement hp hx hstep
    next => exact h
  | other i regs monitor =>
    simp only [sectionStep]
    split
    next hp =>
      have hplace := (place_other regs monitor (.inl hp)).trans hp
      refine h.quiet (e := .other i regs monitor) rfl rfl rfl (fun _ _ => rfl) ?_ ?_
        fun pc hpc => ?_
      · exact fun hc => nomatch hp.symm.trans hc
      · exact fun hc => nomatch hplace.symm.trans hc
      · exact nomatch hplace.symm.trans hpc
    next => exact h

omit [DecidableEq ι] in
theorem sectionsInv_start (regs : ι → Regs) (monitor : ι → Bool) :
    SectionsInv code l₀ s₀ (.start regs monitor s₀) where
  owner := ⟨none,inv_start regs monitor⟩
  called _ _ hp := nomatch hp
  midway _ hp := nomatch hp
  between _ := .nil s₀

theorem sectionsInv_run (regs : ι → Regs) (monitor : ι → Bool) (es : List (SectionEvent ι κ)) :
    SectionsInv code l₀ s₀ (exec (sectionStep code l₀) (.start regs monitor s₀) es) :=
  exec_keeps (fun _ e h => h.step e) (sectionsInv_start regs monitor) es

omit [DecidableEq ι] in
theorem SectionsInv.chain (h : SectionsInv code l₀ s₀ m) (hfree : m.spin.lock.value = 0) :
    Chain (Alone code l₀) m.taken s₀ m.shared := by
  obtain ⟨owner,howner⟩ := h.owner
  obtain rfl := howner.free hfree
  exact h.between fun i hi => nomatch (howner.holds i).mp (holds_of_critical hi)

end Invariant

end Arm64.Spinlock

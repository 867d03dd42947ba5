import Arm64Baremetal.KernelSpinlock

/-!
The WFE of spin_lock and the event register of each core. spin_unlock has no SEV: it wakes the
cores that wait because its store clears their monitors.
-/

set_option autoImplicit false

namespace Arm64.Spinlock
open Runs Exclusive

structure Waiting (ι : Type*) where
  spin : State ι
  event : ι → Bool

/-- `interrupt` is one that core `i` takes and returns from: its handler leaves this lock alone, and
the return clears the monitor and sets the event register. `wake` is any other event. -/
inductive WaitEvent (ι : Type*) where
  | insn (i : ι) (fails : Bool)
  | call (i : ι)
  | other (i : ι) (regs : Regs) (monitor event : Bool)
  | interrupt (i : ι)
  | wake (i : ι)

variable {ι : Type*} [DecidableEq ι]

/-- A store of core `i` that clears the monitor of another core is an event for that core. -/
def signal (i : ι) (before after : Cell ι (BitVec 32)) (event : ι → Bool) (j : ι) : Bool :=
  event j || (j ≠ i && before.monitor j && !after.monitor j)

def Waiting.spinStep (s : Waiting ι) (i : ι) (e : Event ι) : Waiting ι where
  spin := step s.spin e
  event := signal i s.spin.lock (step s.spin e).lock s.event

def Waiting.setEvent (i : ι) (b : Bool) (s : Waiting ι) : Waiting ι :=
  { s with event := Function.update s.event i b }

/-- WFE goes on when the event register is set, and clears it. -/
def waitStep (s : Waiting ι) : WaitEvent ι → Waiting ι
  | .insn i fails =>
    if (s.spin.cores i).place = .spinLock 3 then
      if s.event i then (s.spinStep i (.insn i fails)).setEvent i false else s
    else s.spinStep i (.insn i fails)
  | .call i => s.spinStep i (.call i)
  | .other i regs monitor event =>
    match (s.spin.cores i).place with
    | .outside | .critical => (s.spinStep i (.other i regs monitor)).setEvent i event
    | .spinLock _ | .spinUnlock _ => s
  | .interrupt i =>
    Waiting.setEvent i true
      { s with spin := s.spin.put i (s.spin.cores i) (s.spin.lock.setMonitor i false) }
  | .wake i => s.setEvent i true

/-- A core that has found the lock taken watches the word it has loaded, or has an event that it
has not seen. -/
structure Alert (s : Waiting ι) (i : ι) : Prop where
  watches : (s.spin.cores i).place = .spinLock 2 ∨ (s.spin.cores i).place = .spinLock 3 →
    (s.spin.lock.monitor i = true ∧ s.spin.lock.value = (s.spin.cores i).regs .w2) ∨
      s.event i = true
  taken : (s.spin.cores i).place = .spinLock 3 → (s.spin.cores i).regs .w2 ≠ 0
  place : ∀ pc, (s.spin.cores i).place = .spinLock pc → pc < 8

structure WaitInv (s : Waiting ι) : Prop where
  owner : ∃ owner, Inv owner s.spin
  alert : ∀ i, Alert s i

section Invariant
variable {s : Waiting ι} {i j : ι}

theorem signal_watches {before after : Cell ι (BitVec 32)} {event : ι → Bool} {w : BitVec 32}
    (hj : j ≠ i) (hkeeps : after.monitor j = true → before.monitor j = true ∧
      after.value = before.value)
    (h : (before.monitor j = true ∧ before.value = w) ∨ event j = true) :
    (after.monitor j = true ∧ after.value = w) ∨ signal i before after event j = true := by
  rcases h with ⟨hm,hv⟩ | he
  · by_cases hafter : after.monitor j = true
    · exact .inl ⟨hafter,(hkeeps hafter).2.trans hv⟩
    · exact .inr (by simp [signal,hj,hm,hafter])
  · exact .inr (by simp [signal,he])

theorem monitor_step {owner : Option ι} (h : Inv owner s.spin) (e : Event ι) (hj : j ≠ e.core)
    (hm : (step s.spin e).lock.monitor j = true) :
    s.spin.lock.monitor j = true ∧ (step s.spin e).lock.value = s.spin.lock.value := by
  obtain ⟨k,lock,hstep,-,heffect⟩ := step_cases e (h.cores e.core)
  rw [hstep] at hm ⊢
  cases heffect with
  | quiet same => exact ⟨(same.monitor j hj).symm.trans hm,same.value⟩
  | acquire _ _ stored =>
    subst stored
    exact nomatch hm
  | release _ _ stored =>
    subst stored
    exact nomatch hm

theorem Alert.spinStep {owner : Option ι} (h : Alert s j) (hinv : Inv owner s.spin) {e : Event ι}
    (hj : j ≠ e.core) : Alert (s.spinStep e.core e) j := by
  have hcore : (s.spinStep e.core e).spin.cores j = s.spin.cores j := cores_step hj
  refine ⟨fun hp => ?_,fun hp => ?_,fun pc hp => ?_⟩
  · rw [hcore] at hp ⊢
    exact signal_watches hj (monitor_step hinv e hj) (h.watches hp)
  · rw [hcore] at hp ⊢
    exact h.taken hp
  · rw [hcore] at hp
    exact h.place pc hp

theorem Alert.setEvent (h : Alert s j) (hj : j ≠ i) (b : Bool) : Alert (s.setEvent i b) j :=
  ⟨fun hp => (h.watches hp).imp id fun he => (Function.update_of_ne hj _ _).trans he,h.taken,
    h.place⟩

omit [DecidableEq ι] in
theorem alert_awake (he : s.event i = true)
    (htaken : (s.spin.cores i).place = .spinLock 3 → (s.spin.cores i).regs .w2 ≠ 0)
    (hplace : ∀ pc, (s.spin.cores i).place = .spinLock pc → pc < 8) : Alert s i :=
  ⟨fun _ => .inr he,htaken,hplace⟩

omit [DecidableEq ι] in
theorem alert_elsewhere {pc : Nat} (hp : (s.spin.cores i).place = .spinLock pc) (h2 : pc ≠ 2)
    (h3 : pc ≠ 3) (h8 : pc < 8) : Alert s i where
  watches hp' := by
    rw [hp,Place.spinLock.injEq,Place.spinLock.injEq] at hp'
    omega
  taken hp' := absurd (Place.spinLock.inj (hp.symm.trans hp')) h3
  place pc' hp' := Place.spinLock.inj (hp.symm.trans hp') ▸ h8

omit [DecidableEq ι] in
theorem alert_outside (hp : ∀ pc, (s.spin.cores i).place ≠ .spinLock pc) : Alert s i where
  watches hp' := hp'.elim (fun h => absurd h (hp _)) fun h => absurd h (hp _)
  taken hp' := absurd hp' (hp _)
  place _ hp' := absurd hp' (hp _)

theorem Alert.insn (h : Alert s i) (fails : Bool) : Alert (s.spinStep i (.insn i fails)) i := by
  have hspin : (s.spinStep i (.insn i fails)).spin = step s.spin (.insn i fails) := rfl
  have hsame (he : s.event i = true) : (s.spinStep i (.insn i fails)).event i = true := by
    simp [Waiting.spinStep,signal,he]
  have hmoves {pc' : Nat} {regs : Regs} {lock : Cell ι (BitVec 32)} (h2 : pc' ≠ 2) (h3 : pc' ≠ 3)
      (h8 : pc' < 8) (hput : step s.spin (.insn i fails) = s.spin.put i ⟨.spinLock pc',regs⟩ lock) :
      Alert (s.spinStep i (.insn i fails)) i :=
    alert_elsewhere (by rw [hspin,hput,State.put_self]) h2 h3 h8
  cases hp : (s.spin.cores i).place with
  | spinLock pc =>
    match pc with
    | 0 => exact hmoves (by omega) (by omega) (by omega) (spinLock_mov fails hp)
    | 1 =>
      refine ⟨fun _ => .inl ?_,fun hp' => ?_,fun pc' hp' => ?_⟩
      all_goals rw [hspin,spinLock_ldaxr fails hp] at *
      · rw [State.put_self]
        exact ⟨Function.update_self ..,rfl⟩
      · rw [State.put_self] at hp'
        exact nomatch hp'
      · rw [State.put_self] at hp'
        exact Place.spinLock.inj hp' ▸ by decide
    | 2 =>
      have hput := spinLock_cbz fails hp
      by_cases hfree : (s.spin.cores i).regs .w2 = 0
      · rw [if_pos hfree] at hput
        exact hmoves (by omega) (by omega) (by omega) hput
      · rw [if_neg hfree] at hput
        refine ⟨fun _ => ?_,fun _ => ?_,fun pc' hp' => ?_⟩
        · rw [hspin,hput,State.put_self]
          exact (h.watches (.inl hp)).imp id hsame
        · rwa [hspin,hput,State.put_self]
        · rw [hspin,hput,State.put_self] at hp'
          exact Place.spinLock.inj hp' ▸ by decide
    | 3 => exact hmoves (by omega) (by omega) (by omega) (spinLock_wfe fails hp)
    | 4 => exact hmoves (by omega) (by omega) (by omega) (spinLock_b fails hp)
    | 5 => exact hmoves (by omega) (by omega) (by omega) (spinLock_stlxr fails hp)
    | 6 =>
      refine hmoves ?_ ?_ ?_ (spinLock_cbnz fails hp) <;> split <;> omega
    | 7 =>
      refine alert_outside fun pc' hpc' => ?_
      exact nomatch (place_ret fails hp).symm.trans hpc'
    | pc + 8 => exact absurd (h.place _ hp) (by omega)
  | spinUnlock pc =>
    refine alert_outside fun pc' hpc' => ?_
    rcases place_spinUnlock fails hp with hout | ⟨_,hun⟩
    · exact nomatch hout.symm.trans hpc'
    · exact nomatch hun.symm.trans hpc'
  | outside | critical =>
    refine alert_outside fun pc' hpc' => ?_
    rw [hspin,insn_outside fails (by simp [hp]),hp] at hpc'
    exact nomatch hpc'

theorem Alert.call (h : Alert s i) : Alert (s.spinStep i (.call i)) i := by
  have hspin : (s.spinStep i (.call i)).spin = step s.spin (.call i) := rfl
  cases hp : (s.spin.cores i).place with
  | outside => exact alert_elsewhere (place_call hp) (by decide) (by decide) (by decide)
  | critical => exact alert_outside fun pc hpc => nomatch (place_done hp).symm.trans hpc
  | spinLock pc | spinUnlock pc =>
    have hsame : (s.spinStep i (.call i)).spin = s.spin := by
      rw [hspin]
      simp only [step,hp]
    refine ⟨fun hp' => ?_,fun hp' => ?_,fun pc hp' => ?_⟩
    all_goals rw [hsame] at *
    · exact (h.watches hp').imp id fun he => by simp [Waiting.spinStep,signal,he]
    · exact h.taken hp'
    · exact h.place pc hp'

theorem WaitInv.spinStep (h : WaitInv s) {e : Event ι}
    (hself : Alert (s.spinStep e.core e) e.core) : WaitInv (s.spinStep e.core e) := by
  obtain ⟨owner,howner⟩ := h.owner
  obtain ⟨owner',howner',-⟩ := howner.step e
  refine ⟨⟨owner',howner'⟩,fun j => ?_⟩
  by_cases hj : j = e.core
  · exact hj ▸ hself
  · exact (h.alert j).spinStep howner hj

theorem WaitInv.setEvent (h : WaitInv s) {b : Bool} (hself : Alert (s.setEvent i b) i) :
    WaitInv (s.setEvent i b) := by
  refine ⟨h.owner,fun j => ?_⟩
  by_cases hj : j = i
  · exact hj ▸ hself
  · exact (h.alert j).setEvent hj b

theorem Inv.interrupt {owner : Option ι} {s : State ι} (h : Inv owner s) (i : ι) :
    Inv owner (s.put i (s.cores i) (s.lock.setMonitor i false)) := by
  have hclear : (s.lock.setMonitor i false).monitor i = false := Function.update_self ..
  have hok := h.cores i
  refine h.put ⟨hok.one,fun _ hm => ?_,hok.free⟩ (fun j w hj hw => ?_) (h.holds i)
    (fun _ _ => Iff.rfl) h.value
  · exact nomatch hclear.symm.trans hm
  · exact hw.other (sameFor_setMonitor _ i false) hj

theorem WaitInv.interrupt (h : WaitInv s) (i : ι) : WaitInv (waitStep s (.interrupt i)) := by
  obtain ⟨owner,howner⟩ := h.owner
  refine ⟨⟨owner,howner.interrupt i⟩,fun j => ?_⟩
  have hcores : (waitStep s (.interrupt i)).spin.cores = s.spin.cores :=
    Function.update_eq_self i s.spin.cores
  by_cases hj : j = i
  · subst hj
    refine alert_awake (Function.update_self ..) ?_ ?_
    · rw [hcores]
      exact (h.alert j).taken
    · rw [hcores]
      exact (h.alert j).place
  · have hmonitor : (waitStep s (.interrupt i)).spin.lock.monitor j = s.spin.lock.monitor j :=
      Function.update_of_ne hj _ _
    have hevent : (waitStep s (.interrupt i)).event j = s.event j := Function.update_of_ne hj _ _
    refine ⟨fun hp => ?_,fun hp => ?_,fun pc hp => ?_⟩
    all_goals rw [hcores] at *
    · rw [hmonitor,hevent]
      exact (h.alert j).watches hp
    · exact (h.alert j).taken hp
    · exact (h.alert j).place pc hp

theorem WaitInv.other (h : WaitInv s) {regs : Regs} {monitor event : Bool}
    (hp : (s.spin.cores i).place = .outside ∨ (s.spin.cores i).place = .critical) :
    WaitInv ((s.spinStep i (.other i regs monitor)).setEvent i event) := by
  have hplace := place_other regs monitor hp
  have hout : ∀ pc, ((step s.spin (.other i regs monitor)).cores i).place ≠ .spinLock pc := by
    intro pc hpc
    rw [hplace] at hpc
    rcases hp with hp | hp <;> exact nomatch hp.symm.trans hpc
  exact (h.spinStep (e := .other i regs monitor) (alert_outside hout)).setEvent (alert_outside hout)

theorem WaitInv.step (h : WaitInv s) (e : WaitEvent ι) : WaitInv (waitStep s e) := by
  cases e with
  | insn i fails =>
    have hstep : WaitInv (s.spinStep i (.insn i fails)) :=
      h.spinStep (e := .insn i fails) ((h.alert i).insn fails)
    simp only [waitStep]
    split
    next hp =>
      split
      · refine hstep.setEvent (@alert_elsewhere _ _ _ 4 ?_ (by decide) (by decide) (by decide))
        change ((State.cores (Spinlock.step s.spin (.insn i fails))) i).place = _
        rw [spinLock_wfe fails hp,State.put_self]
      · exact h
    next => exact hstep
  | call i => exact h.spinStep (e := .call i) (h.alert i).call
  | other i regs monitor event =>
    simp only [waitStep]
    split
    next hp => exact h.other (.inl hp)
    next hp => exact h.other (.inr hp)
    all_goals exact h
  | interrupt i => exact h.interrupt i
  | wake i =>
    exact h.setEvent (alert_awake (Function.update_self ..) (h.alert i).taken (h.alert i).place)

end Invariant

def Waiting.start (regs : ι → Regs) (monitor event : ι → Bool) : Waiting ι where
  spin := .start regs monitor
  event := event

theorem waitInv_run (regs : ι → Regs) (monitor event : ι → Bool) (es : List (WaitEvent ι)) :
    WaitInv (exec waitStep (.start regs monitor event) es) := by
  refine exec_keeps (fun _ e h => h.step e) ⟨⟨none,inv_start regs monitor⟩,fun i => ?_⟩ es
  exact alert_outside fun _ => Place.noConfusion

/-- Whenever the lock is free, no core is asleep in spin_lock: a WFE that a core is at goes on. -/
theorem no_lost_wakeup (regs : ι → Regs) (monitor event : ι → Bool) (es : List (WaitEvent ι))
    (hfree : (exec waitStep (.start regs monitor event) es).spin.lock.value = 0) (i : ι)
    (hi : ((exec waitStep (.start regs monitor event) es).spin.cores i).place = .spinLock 3) :
    (exec waitStep (.start regs monitor event) es).event i = true := by
  have halert := (waitInv_run regs monitor event es).alert i
  rcases halert.watches (.inr hi) with ⟨_,hv⟩ | he
  · exact absurd (hv.symm.trans hfree) (halert.taken hi)
  · exact he

/-- The core that waits is at its WFE when the lock is given back. -/
theorem no_lost_wakeup_waiting :
    let start : Waiting Bool := .start (fun _ _ => 0) (fun _ => false) fun _ => false
    let insns (i : Bool) (n : Nat) : List (WaitEvent Bool) := List.replicate n (.insn i false)
    let es :=
      .call true :: insns true 6 ++ .call false :: insns false 3 ++ .call true :: insns true 1
    (exec waitStep start es).event false = true :=
  no_lost_wakeup (fun _ _ => 0) (fun _ => false) (fun _ => false) _ (by decide) false (by decide)

section Progress
variable {s : Waiting ι} {i j : ι}

/-- How many more instructions a core takes at most to get the lock, if it stays free. -/
def Core.left (k : Core) (monitor : Bool) : Nat :=
  match k.place with
  | .spinLock 0 | .spinLock 4 | .spinLock 6 => 4
  | .spinLock 1 => 3
  | .spinLock 2 => if k.regs .w2 = 0 ∧ monitor = true then 2 else 6
  | .spinLock 3 => 5
  | .spinLock 5 => if monitor = true then 1 else 5
  | _ => 0

def Waiting.left (s : Waiting ι) (i : ι) : Nat :=
  (s.spin.cores i).left (s.spin.lock.monitor i)

def Enters (s : Waiting ι) (e : WaitEvent ι) : Prop :=
  ∃ j, e = .insn j false ∧ Acquires j s.spin (.insn j false)

/-- No STLXR of core `i` fails without a cause, and no interrupt takes its monitor away. -/
def Undisturbed (i : ι) (e : WaitEvent ι) : Prop := e ≠ .insn i true ∧ e ≠ .interrupt i

def ownInsn (i : ι) : WaitEvent ι → Bool
  | .insn j _ => j = i
  | _ => false

structure Trying (s : Waiting ι) (i : ι) : Prop where
  inv : WaitInv s
  free : s.spin.lock.value = 0
  place : ∃ pc, (s.spin.cores i).place = .spinLock pc

omit [DecidableEq ι] in
theorem Trying.not_holds (h : Trying s i) : ¬ (s.spin.cores i).Holds := by
  obtain ⟨owner,howner⟩ := h.inv.owner
  obtain rfl := howner.free h.free
  exact fun hi => nomatch (howner.holds i).mp hi

theorem Trying.same (h : Trying s i) {e : Event ι} (hno : ¬ Acquires e.core s.spin e) :
    s.spin.lock.SameFor (step s.spin e).lock e.core := by
  obtain ⟨owner,howner⟩ := h.inv.owner
  obtain rfl := howner.free h.free
  obtain ⟨k,lock,hstep,-,heffect⟩ := step_cases e (howner.cores e.core)
  rw [hstep]
  cases heffect with
  | quiet same => exact same
  | acquire acquires => exact absurd acquires hno
  | release _ held => exact nomatch (howner.holds e.core).mp held

omit [DecidableEq ι] in
theorem Trying.frame (h : Trying s i) {s' : Waiting ι} (hinv : WaitInv s')
    (hcore : s'.spin.cores i = s.spin.cores i) (hvalue : s'.spin.lock.value = s.spin.lock.value)
    (hmonitor : s'.spin.lock.monitor i = s.spin.lock.monitor i) :
    Trying s' i ∧ s'.left i = s.left i := by
  refine ⟨⟨hinv,hvalue.trans h.free,by rw [hcore]; exact h.place⟩,?_⟩
  simp only [Waiting.left,hcore,hmonitor]

theorem Trying.spin_insn (h : Trying s i) :
    (waitStep s (.insn i false)).spin = step s.spin (.insn i false) := by
  simp only [waitStep]
  split
  next hp =>
    have halert := h.inv.alert i
    rcases halert.watches (.inr hp) with ⟨_,hv⟩ | he
    · exact absurd (hv.symm.trans h.free) (halert.taken hp)
    · rw [if_pos he]
      rfl
  next => rfl

theorem Trying.insn (h : Trying s i) (hno : ¬ Enters s (.insn i false)) :
    Trying (waitStep s (.insn i false)) i ∧
      (waitStep s (.insn i false)).left i + 1 ≤ s.left i := by
  have hacquires : ¬ Acquires i s.spin (.insn i false) := fun ha => hno ⟨i,rfl,ha⟩
  have hvalue := (h.same (e := .insn i false) hacquires).value
  obtain ⟨pc,hp⟩ := h.place
  have hmoves {pc' : Nat} {regs : Regs} {lock : Cell ι (BitVec 32)}
      (hput : step s.spin (.insn i false) = s.spin.put i ⟨.spinLock pc',regs⟩ lock)
      (hleft : (Core.mk (.spinLock pc') regs).left (lock.monitor i) + 1 ≤
        (Core.mk (.spinLock pc) (s.spin.cores i).regs).left (s.spin.lock.monitor i)) :
      Trying (waitStep s (.insn i false)) i ∧
        (waitStep s (.insn i false)).left i + 1 ≤ s.left i := by
    refine ⟨⟨h.inv.step _,?_,pc',?_⟩,?_⟩
    · rw [h.spin_insn]
      exact hvalue.trans h.free
    · rw [h.spin_insn,hput,State.put_self]
    · rw [Waiting.left,Waiting.left,h.spin_insn,hput,State.put_self,core_eta hp]
      exact hleft
  match pc with
  | 0 => exact hmoves (spinLock_mov false hp) (Nat.le_refl 4)
  | 1 =>
    refine hmoves (spinLock_ldaxr false hp) ?_
    have hmonitor : (s.spin.lock.loadExclusive i).monitor i = true := Function.update_self ..
    rw [hmonitor,h.free]
    exact Nat.le_refl 3
  | 2 =>
    have hput := spinLock_cbz false hp
    by_cases hw : (s.spin.cores i).regs .w2 = 0
    · rw [if_pos hw] at hput
      refine hmoves hput ?_
      cases s.spin.lock.monitor i <;> simp [Core.left,hw]
    · rw [if_neg hw] at hput
      refine hmoves hput ?_
      change 5 + 1 ≤ if (s.spin.cores i).regs .w2 = 0 ∧ _ then 2 else 6
      exact Nat.le_of_eq (if_neg fun hc => hw hc.1).symm
  | 3 => exact hmoves (spinLock_wfe false hp) (Nat.le_refl 5)
  | 4 => exact hmoves (spinLock_b false hp) (Nat.le_refl 4)
  | 5 =>
    have hmonitor : s.spin.lock.monitor i = false := by
      by_contra hm
      exact hacquires ⟨rfl,hp,(Bool.not_eq_false _).mp hm⟩
    refine hmoves (spinLock_stlxr false hp) ?_
    rw [hmonitor]
    exact Nat.le_refl 5
  | 6 =>
    have hw : (s.spin.cores i).regs .w3 ≠ 0 := fun hw => h.not_holds (.inl ⟨hp,hw⟩)
    have hput := spinLock_cbnz false hp
    rw [if_pos hw] at hput
    exact hmoves hput (Nat.le_refl 4)
  | 7 => exact absurd (.inr (.inl hp)) h.not_holds
  | pc + 8 => exact absurd ((h.inv.alert i).place _ hp) (by omega)

theorem Trying.spin (h : Trying s i) {e : Event ι} {s' : Waiting ι} (hinv : WaitInv s')
    (hs : s'.spin = step s.spin e) (hi : i ≠ e.core) (hno : ¬ Acquires e.core s.spin e) :
    Trying s' i ∧ s'.left i = s.left i := by
  have hsame := h.same hno
  refine h.frame hinv ?_ ?_ ?_
  all_goals rw [hs]
  · exact cores_step hi
  · exact hsame.value
  · exact hsame.monitor i hi

theorem Trying.rest (h : Trying s i) {e : WaitEvent ι} (he : Undisturbed i e)
    (hown : ownInsn i e = false) (hno : ¬ Enters s e) :
    Trying (waitStep s e) i ∧ (waitStep s e).left i = s.left i := by
  have hinv := h.inv.step e
  have hstay (hs : (waitStep s e).spin = s.spin) :
      Trying (waitStep s e) i ∧ (waitStep s e).left i = s.left i :=
    h.frame hinv (by rw [hs]) (by rw [hs]) (by rw [hs])
  obtain ⟨pc,hp⟩ := h.place
  cases e with
  | insn j fails =>
    have hj : i ≠ j := by
      rintro rfl
      simp [ownInsn] at hown
    have hacquires : ¬ Acquires j s.spin (.insn j fails) := by
      intro ha
      obtain rfl : fails = false := (Event.insn.inj ha.1).2
      exact hno ⟨j,rfl,ha⟩
    by_cases hwfe : (s.spin.cores j).place = .spinLock 3 ∧ s.event j = false
    · refine hstay ?_
      simp [waitStep,hwfe]
    · refine h.spin (e := .insn j fails) hinv ?_ hj hacquires
      simp only [waitStep]
      split
      next hp3 =>
        have hevent : s.event j = true := (Bool.not_eq_false _).mp fun hf => hwfe ⟨hp3,hf⟩
        rw [if_pos hevent]
        rfl
      next => rfl
  | call j =>
    by_cases hj : i = j
    · subst hj
      refine hstay ?_
      simp only [waitStep,Waiting.spinStep,step,hp]
    · exact h.spin (e := .call j) hinv rfl hj fun ha => by cases ha.1
  | other j regs monitor event =>
    by_cases hj : i = j
    · subst hj
      refine hstay ?_
      simp only [waitStep,hp]
    · cases hpj : (s.spin.cores j).place with
      | outside | critical =>
        refine h.spin (e := .other j regs monitor) hinv ?_ hj fun ha => by cases ha.1
        simp only [waitStep,hpj]
        rfl
      | spinLock _ | spinUnlock _ => exact hstay (by simp only [waitStep,hpj])
  | interrupt j =>
    have hj : i ≠ j := by
      rintro rfl
      exact he.2 rfl
    exact h.frame hinv (State.put_other hj _ _ _) rfl (Function.update_of_ne hj _ _)
  | wake j => exact hstay rfl

omit [DecidableEq ι] in
theorem Trying.left_pos (h : Trying s i) : 0 < s.left i := by
  obtain ⟨pc,hp⟩ := h.place
  rw [Waiting.left,core_eta hp]
  match pc with
  | 0 | 1 | 3 | 4 | 6 => exact Nat.succ_pos _
  | 2 | 5 =>
    simp only [Core.left]
    split <;> decide
  | 7 => exact absurd (.inr (.inl hp)) h.not_holds
  | pc + 8 => exact absurd ((h.inv.alert i).place _ hp) (by omega)

omit [DecidableEq ι] in
theorem left_le (s : Waiting ι) (i : ι) : s.left i ≤ 6 := by
  unfold Waiting.left Core.left
  split
  all_goals first | decide | (split <;> decide)

/-- A core that takes as many instructions as it needs sees the lock taken. -/
theorem Trying.enters (h : Trying s i) {es : List (WaitEvent ι)}
    (hquiet : ∀ e ∈ es, Undisturbed i e) (hturns : s.left i ≤ es.countP (ownInsn i)) :
    ∃ pre e post, es = pre ++ e :: post ∧ Enters (exec waitStep s pre) e := by
  induction es generalizing s with
  | nil => exact absurd hturns (Nat.not_le.mpr h.left_pos)
  | cons e es ih =>
    by_cases hno : Enters s e
    · exact ⟨[],e,es,rfl,hno⟩
    have he := hquiet e List.mem_cons_self
    have hnext : Trying (waitStep s e) i ∧ (waitStep s e).left i ≤ es.countP (ownInsn i) := by
      cases hown : ownInsn i e with
      | true =>
        rw [List.countP_cons_of_pos hown] at hturns
        obtain rfl : e = .insn i false := by
          cases e with
          | insn j fails =>
            obtain rfl : j = i := by simpa [ownInsn] using hown
            cases fails with
            | false => rfl
            | true => exact absurd rfl he.1
          | call | other | interrupt | wake => exact nomatch hown
        obtain ⟨htrying,hleft⟩ := h.insn hno
        exact ⟨htrying,by omega⟩
      | false =>
        rw [List.countP_cons_of_neg (by rw [hown]; decide)] at hturns
        obtain ⟨htrying,hleft⟩ := h.rest he hown hno
        exact ⟨htrying,hleft ▸ hturns⟩
    obtain ⟨pre,e',post,rfl,henters⟩ :=
      ih hnext.1 (fun e' he' => hquiet e' (List.mem_cons_of_mem e he')) hnext.2
    exact ⟨e :: pre,e',post,rfl,henters⟩

end Progress

/-- When the lock is free and core `i` is in spin_lock, then some core gets the lock within six
instructions of core `i`, whatever the others do. -/
theorem spin_lock_progress (regs : ι → Regs) (monitor event : ι → Bool) (es : List (WaitEvent ι))
    (hfree : (exec waitStep (.start regs monitor event) es).spin.lock.value = 0) (i : ι)
    (hi : ∃ pc, ((exec waitStep (.start regs monitor event) es).spin.cores i).place = .spinLock pc)
    (es' : List (WaitEvent ι)) (hquiet : ∀ e ∈ es', Undisturbed i e)
    (hturns : 6 ≤ es'.countP (ownInsn i)) :
    ∃ pre e post, es' = pre ++ e :: post ∧
      Enters (exec waitStep (.start regs monitor event) (es ++ pre)) e := by
  have htrying : Trying (exec waitStep (.start regs monitor event) es) i :=
    ⟨waitInv_run regs monitor event es,hfree,hi⟩
  obtain ⟨pre,e,post,hes,henters⟩ := htrying.enters hquiet (Nat.le_trans (left_le _ i) hturns)
  exact ⟨pre,e,post,hes,by rwa [exec_append]⟩

/-- The core that waits has lost its monitor to the store, and starts again. -/
theorem spin_lock_progress_waiting :
    let start : Waiting Bool := .start (fun _ _ => 0) (fun _ => false) fun _ => false
    let insns (i : Bool) (n : Nat) : List (WaitEvent Bool) := List.replicate n (.insn i false)
    let es :=
      .call true :: insns true 7 ++ .call false :: insns false 3 ++ .call true :: insns true 1
    ∃ pre e post, insns false 6 = pre ++ e :: post ∧ Enters (exec waitStep start (es ++ pre)) e :=
  spin_lock_progress (fun _ _ => 0) (fun _ => false) (fun _ => false) _ (by decide) false
    ⟨3,by decide⟩ _ (fun _ he => (List.eq_of_mem_replicate he) ▸ ⟨nofun,nofun⟩) (by decide)

end Arm64.Spinlock

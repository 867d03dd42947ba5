import Arm64Baremetal.Exclusive
import Arm64Baremetal.Runs

set_option autoImplicit false

namespace Arm64.Spinlock
open Runs Exclusive

/-- The registers that spin_lock writes. x0 is the address of the lock word. -/
inductive Reg where
  | w1 | w2 | w3
  deriving DecidableEq

/-- Branches name the instruction that their label stands in front of. -/
inductive Insn where
  | mov (d : Reg) (imm : BitVec 32)
  | ldaxr (d : Reg)
  | cbz (r : Reg) (target : Nat)
  | cbnz (r : Reg) (target : Nat)
  | wfe
  | b (target : Nat)
  | stlxr (status src : Reg)
  | stlrWzr
  | ret
  deriving DecidableEq

/-- spin_lock: `1:` is 1 and `2:` is 5. -/
def spinLock : List Insn :=
  [.mov .w1 1,.ldaxr .w2,.cbz .w2 5,.wfe,.b 1,.stlxr .w3 .w1,.cbnz .w3 1,.ret]

def spinUnlock : List Insn := [.stlrWzr,.ret]

/-- The instruction that a core is at, if it is in one of the two functions. -/
inductive Place where
  | outside
  | spinLock (pc : Nat)
  | critical
  | spinUnlock (pc : Nat)
  deriving DecidableEq

abbrev Regs := Reg → BitVec 32

structure Core where
  place : Place
  regs : Regs

variable {ι : Type*}

structure State (ι : Type*) where
  cores : ι → Core
  lock : Cell ι (BitVec 32)

def State.start (regs : ι → Regs) (monitor : ι → Bool) : State ι where
  cores i := ⟨.outside,regs i⟩
  lock := ⟨0,monitor⟩

/-- `insn` is the next instruction of core `i`, where an STLXR may fail; `call` is its call of
spin_lock or spin_unlock, and `other` all else that it does outside of the two functions. -/
inductive Event (ι : Type*) where
  | insn (i : ι) (fails : Bool)
  | call (i : ι)
  | other (i : ι) (regs : Regs) (monitor : Bool)

def Event.core : Event ι → ι
  | .insn i _ | .call i | .other i _ _ => i

variable [DecidableEq ι]

def Regs.set (d : Reg) (w : BitVec 32) (regs : Regs) : Regs := Function.update regs d w

/-- Where an instruction at `pc` goes on, `none` after `ret`, and what it writes. -/
def Insn.exec (i : ι) (fails : Bool) (pc : Nat) (regs : Regs) (lock : Cell ι (BitVec 32)) :
    Insn → Option Nat × Regs × Cell ι (BitVec 32)
  | .mov d imm => (some (pc + 1),regs.set d imm,lock)
  | .ldaxr d => (some (pc + 1),regs.set d lock.value,lock.loadExclusive i)
  | .cbz r target => (some (if regs r = 0 then target else pc + 1),regs,lock)
  | .cbnz r target => (some (if regs r ≠ 0 then target else pc + 1),regs,lock)
  | .wfe => (some (pc + 1),regs,lock)
  | .b target => (some target,regs,lock)
  | .stlxr status src =>
    let r := lock.storeExclusive i (regs src) fails
    (some (pc + 1),regs.set status (if r.1 then 0 else 1),r.2)
  | .stlrWzr => (some (pc + 1),regs,lock.store 0)
  | .ret => (none,regs,lock)

namespace State

def put (i : ι) (k : Core) (lock : Cell ι (BitVec 32)) (s : State ι) : State ι where
  cores := Function.update s.cores i k
  lock := lock

@[simp] theorem put_self (i : ι) (k : Core) (lock : Cell ι (BitVec 32)) (s : State ι) :
    (s.put i k lock).cores i = k := Function.update_self ..

theorem put_other {i j : ι} (h : j ≠ i) (k : Core) (lock : Cell ι (BitVec 32)) (s : State ι) :
    (s.put i k lock).cores j = s.cores j := Function.update_of_ne h _ _

/-- The instruction at `pc` of one of the functions, which `ret` leaves for `back`. -/
def insnStep (code : List Insn) (within : Nat → Place) (back : Place) (i : ι) (fails : Bool)
    (pc : Nat) (s : State ι) : State ι :=
  match code[pc]? with
  | none => s
  | some insn =>
    let r := insn.exec i fails pc (s.cores i).regs s.lock
    s.put i ⟨r.1.elim back within,r.2.1⟩ r.2.2

end State

def step (s : State ι) : Event ι → State ι
  | .insn i fails =>
    match (s.cores i).place with
    | .spinLock pc => s.insnStep spinLock .spinLock .critical i fails pc
    | .spinUnlock pc => s.insnStep spinUnlock .spinUnlock .outside i fails pc
    | .outside | .critical => s
  | .call i =>
    match (s.cores i).place with
    | .outside => s.put i { s.cores i with place := .spinLock 0 } s.lock
    | .critical => s.put i { s.cores i with place := .spinUnlock 0 } s.lock
    | .spinLock _ | .spinUnlock _ => s
  | .other i regs monitor =>
    match (s.cores i).place with
    | .outside | .critical =>
      s.put i { s.cores i with regs := regs } (s.lock.setMonitor i monitor)
    | .spinLock _ | .spinUnlock _ => s

/-- A successful STLXR of core `i` in spin_lock. -/
def Acquires (i : ι) (s : State ι) (e : Event ι) : Prop :=
  e = .insn i false ∧ (s.cores i).place = .spinLock 5 ∧ s.lock.monitor i = true

/-- The store of core `i` in spin_unlock. -/
def Releases (i : ι) (s : State ι) (e : Event ι) : Prop :=
  (∃ fails, e = .insn i fails) ∧ (s.cores i).place = .spinUnlock 0

/-- Between the return of spin_lock and the store of spin_unlock. -/
def Core.Inside (k : Core) : Prop := k.place = .critical ∨ k.place = .spinUnlock 0

/-- Between the successful STLXR and the store of spin_unlock. -/
def Core.Holds (k : Core) : Prop :=
  (k.place = .spinLock 6 ∧ k.regs .w3 = 0) ∨ k.place = .spinLock 7 ∨ k.Inside

/-- What core `i` knows at the instructions of spin_lock. -/
structure CoreOk (lock : Cell ι (BitVec 32)) (i : ι) (k : Core) : Prop where
  one : ∀ pc, k.place = .spinLock (pc + 1) → k.regs .w1 = 1
  loaded : k.place = .spinLock 2 ∨ k.place = .spinLock 5 → lock.Watches i (k.regs .w2)
  free : k.place = .spinLock 5 → k.regs .w2 = 0

/-- What a step of core `i`, which leaves it as `k`, does to the lock. -/
inductive Effect (i : ι) (s : State ι) (e : Event ι) (k : Core) (lock : Cell ι (BitVec 32)) : Prop
  | quiet (same : s.lock.SameFor lock i) (holds : k.Holds ↔ (s.cores i).Holds)
      (acquires : ¬ Acquires i s e) (releases : ¬ Releases i s e)
  | acquire (acquires : Acquires i s e) (free : s.lock.value = 0) (stored : lock = s.lock.store 1)
      (holds : k.Holds)
  | release (releases : Releases i s e) (held : (s.cores i).Holds) (stored : lock = s.lock.store 0)
      (holds : ¬ k.Holds)

/-- Every core knows what it has to, and `owner` is the one that holds the lock. -/
structure Inv (owner : Option ι) (s : State ι) : Prop where
  cores : ∀ i, CoreOk s.lock i (s.cores i)
  holds : ∀ i, (s.cores i).Holds ↔ owner = some i
  value : s.lock.value = if owner.isSome then 1 else 0

section Places
variable {i : ι} {s : State ι} {fails : Bool} {pc : Nat} {regs : Regs} {lock : Cell ι (BitVec 32)}

omit [DecidableEq ι]

theorem holds_spinLock :
    (Core.mk (.spinLock pc) regs).Holds ↔ (pc = 6 ∧ regs .w3 = 0) ∨ pc = 7 := by
  simp [Core.Holds,Core.Inside]

theorem holds_critical : (Core.mk .critical regs).Holds := .inr (.inr (.inl rfl))

theorem not_holds_outside : ¬ (Core.mk .outside regs).Holds := by
  simp [Core.Holds,Core.Inside]

theorem holds_spinUnlock : (Core.mk (.spinUnlock pc) regs).Holds ↔ pc = 0 := by
  simp [Core.Holds,Core.Inside]

theorem coreOk_of_place {k : Core} (h : ∀ pc, k.place ≠ .spinLock pc) : CoreOk lock i k where
  one _ hp := absurd hp (h _)
  loaded hp := hp.elim (fun hp => absurd hp (h _)) fun hp => absurd hp (h _)
  free hp := absurd hp (h _)

theorem core_eta {k : Core} {p : Place} (h : k.place = p) : k = ⟨p,k.regs⟩ := by
  rw [← h]

theorem not_acquires_of_place {e : Event ι} (h : (s.cores i).place ≠ .spinLock 5) :
    ¬ Acquires i s e := fun ha => h ha.2.1

theorem not_releases_of_place {e : Event ι} (h : (s.cores i).place ≠ .spinUnlock 0) :
    ¬ Releases i s e := fun hr => h hr.2

end Places

section Steps
variable {i : ι} {s : State ι} {fails : Bool} {pc : Nat}

def Steps (i : ι) (s : State ι) (e : Event ι) (s' : State ι) : Prop :=
  ∃ k lock, s' = s.put i k lock ∧ CoreOk lock i k ∧ Effect i s e k lock

theorem put_same (s : State ι) (i : ι) : s.put i (s.cores i) s.lock = s := by
  simp only [State.put,Function.update_eq_self]

theorem steps_refl {e : Event ι} (h : CoreOk s.lock i (s.cores i)) (ha : ¬ Acquires i s e)
    (hr : ¬ Releases i s e) : Steps i s e s :=
  ⟨_,_,(put_same s i).symm,h,.quiet (.refl _ i) Iff.rfl ha hr⟩

theorem steps_spinLock {e : Event ι} {pc' : Nat} {regs : Regs} {lock : Cell ι (BitVec 32)}
    (hp : (s.cores i).place = .spinLock pc) (hpc : pc ≠ 5) (hsame : s.lock.SameFor lock i)
    (hok : CoreOk lock i ⟨.spinLock pc',regs⟩)
    (hholds : (Core.mk (.spinLock pc') regs).Holds ↔ (s.cores i).Holds) :
    Steps i s e (s.put i ⟨.spinLock pc',regs⟩ lock) := by
  refine ⟨_,_,rfl,hok,.quiet hsame hholds (not_acquires_of_place ?_) (not_releases_of_place ?_)⟩
  · rw [hp]
    exact fun h => hpc (Place.spinLock.inj h)
  · rw [hp]
    exact Place.noConfusion

theorem steps_asking {e : Event ι} {pc' : Nat} {regs : Regs} {lock : Cell ι (BitVec 32)}
    (hp : (s.cores i).place = .spinLock pc) (hpc : pc < 5) (hpc' : pc' < 6)
    (hsame : s.lock.SameFor lock i) (hok : CoreOk lock i ⟨.spinLock pc',regs⟩) :
    Steps i s e (s.put i ⟨.spinLock pc',regs⟩ lock) := by
  refine steps_spinLock hp (by omega) hsame hok ?_
  rw [core_eta hp,holds_spinLock,holds_spinLock]
  omega

/-- `cbz w2, 2f` -/
theorem insnStep_cbz (hp : (s.cores i).place = .spinLock 2)
    (h : CoreOk s.lock i (s.cores i)) :
    Steps i s (.insn i fails) (s.insnStep spinLock .spinLock .critical i fails 2) := by
  have hone : (s.cores i).regs .w1 = 1 := h.one 1 hp
  have hloaded := h.loaded (.inl hp)
  have hstep : s.insnStep spinLock .spinLock .critical i fails 2 =
      s.put i ⟨.spinLock (if (s.cores i).regs .w2 = 0 then 5 else 3),(s.cores i).regs⟩ s.lock :=
    rfl
  rw [hstep]
  by_cases hfree : (s.cores i).regs .w2 = 0
  · rw [if_pos hfree]
    exact steps_asking hp (by omega) (by omega) (.refl _ i)
      ⟨fun _ _ => hone,fun _ => hloaded,fun _ => hfree⟩
  · rw [if_neg hfree]
    exact steps_asking hp (by omega) (by omega) (.refl _ i) ⟨fun _ _ => hone,by simp,by simp⟩

/-- `stlxr w3, w1, [x0]` -/
theorem insnStep_stlxr (hp : (s.cores i).place = .spinLock 5)
    (h : CoreOk s.lock i (s.cores i)) :
    Steps i s (.insn i fails) (s.insnStep spinLock .spinLock .critical i fails 5) := by
  have hone : (s.cores i).regs .w1 = 1 := h.one 4 hp
  have hquiet : ¬ (s.cores i).Holds := by
    rw [core_eta hp,holds_spinLock]
    omega
  have hstep : s.insnStep spinLock .spinLock .critical i fails 5 =
      let r := s.lock.storeExclusive i ((s.cores i).regs .w1) fails
      s.put i ⟨.spinLock 6,(s.cores i).regs.set .w3 (if r.1 then 0 else 1)⟩ r.2 := rfl
  rw [hstep]
  rcases storeExclusive_cases i ((s.cores i).regs .w1) fails s.lock with
    ⟨⟨hmon,rfl⟩,hst⟩ | ⟨hno,hst⟩
  · -- the monitor is still set, so the lock is as free as it was loaded
    have hvalue : s.lock.value = 0 := (h.loaded (.inr hp) hmon).trans (h.free hp)
    rw [hst,hone]
    exact ⟨_,_,rfl,⟨fun _ _ => hone,by simp,by simp⟩,
      .acquire ⟨rfl,hp,hmon⟩ hvalue rfl (holds_spinLock.mpr (.inl ⟨rfl,rfl⟩))⟩
  · rw [hst]
    refine ⟨_,_,rfl,⟨fun _ _ => hone,by simp,by simp⟩,
      .quiet (sameFor_setMonitor _ i false) (iff_of_false ?_ hquiet) ?_ ?_⟩
    · rw [holds_spinLock]
      simp [Regs.set]
    · exact fun ha => hno ⟨ha.2.2,(Event.insn.inj ha.1).2⟩
    · exact not_releases_of_place (by rw [hp]; exact Place.noConfusion)

/-- `cbnz w3, 1b` -/
theorem insnStep_cbnz (hp : (s.cores i).place = .spinLock 6)
    (h : CoreOk s.lock i (s.cores i)) :
    Steps i s (.insn i fails) (s.insnStep spinLock .spinLock .critical i fails 6) := by
  have hone : (s.cores i).regs .w1 = 1 := h.one 5 hp
  have hstep : s.insnStep spinLock .spinLock .critical i fails 6 =
      s.put i ⟨.spinLock (if (s.cores i).regs .w3 ≠ 0 then 1 else 7),(s.cores i).regs⟩ s.lock :=
    rfl
  rw [hstep]
  by_cases hw : (s.cores i).regs .w3 ≠ 0
  · rw [if_pos hw]
    refine steps_spinLock hp (by omega) (.refl _ i) ⟨fun _ _ => hone,by simp,by simp⟩ ?_
    rw [core_eta hp,holds_spinLock,holds_spinLock]
    exact iff_of_false (by omega) (by simpa using hw)
  · rw [if_neg hw]
    refine steps_spinLock hp (by omega) (.refl _ i) ⟨fun _ _ => hone,by simp,by simp⟩ ?_
    rw [core_eta hp,holds_spinLock,holds_spinLock]
    exact iff_of_true (.inr rfl) (.inl ⟨rfl,not_ne_iff.mp hw⟩)

theorem insnStep_spinLock (hp : (s.cores i).place = .spinLock pc)
    (h : CoreOk s.lock i (s.cores i)) :
    Steps i s (.insn i fails) (s.insnStep spinLock .spinLock .critical i fails pc) := by
  match pc with
  | 0 =>
    refine steps_asking hp (by omega) (by omega) (.refl _ i) ⟨fun _ _ => rfl,?_,?_⟩ <;> simp
  | 1 =>
    have hone : (s.cores i).regs .w1 = 1 := h.one 0 hp
    exact steps_asking hp (by omega) (by omega) (sameFor_setMonitor _ i true)
      ⟨fun _ _ => hone,fun _ => watches_loadExclusive _ i,by simp⟩
  | 2 => exact insnStep_cbz hp h
  | 3 =>
    have hone : (s.cores i).regs .w1 = 1 := h.one 2 hp
    exact steps_asking hp (by omega) (by omega) (.refl _ i) ⟨fun _ _ => hone,by simp,by simp⟩
  | 4 =>
    have hone : (s.cores i).regs .w1 = 1 := h.one 3 hp
    exact steps_asking hp (by omega) (by omega) (.refl _ i) ⟨fun _ _ => hone,by simp,by simp⟩
  | 5 => exact insnStep_stlxr hp h
  | 6 => exact insnStep_cbnz hp h
  | 7 =>
    refine ⟨⟨.critical,(s.cores i).regs⟩,s.lock,rfl,coreOk_of_place fun _ => Place.noConfusion,
      .quiet (.refl _ i) (iff_of_true holds_critical ?_) (not_acquires_of_place ?_)
        (not_releases_of_place ?_)⟩
    · rw [core_eta hp]
      exact holds_spinLock.mpr (.inr rfl)
    · rw [hp]
      decide
    · rw [hp]
      exact Place.noConfusion
  | pc + 8 =>
    refine steps_refl h (not_acquires_of_place ?_) (not_releases_of_place ?_)
    · rw [hp]
      exact fun h => absurd (Place.spinLock.inj h) (by omega)
    · rw [hp]
      exact Place.noConfusion

theorem insnStep_spinUnlock (hp : (s.cores i).place = .spinUnlock pc)
    (h : CoreOk s.lock i (s.cores i)) :
    Steps i s (.insn i fails) (s.insnStep spinUnlock .spinUnlock .outside i fails pc) := by
  have hacquires : ¬ Acquires i s (.insn i fails) :=
    not_acquires_of_place (by rw [hp]; exact Place.noConfusion)
  have hreleases (hpc : pc ≠ 0) : ¬ Releases i s (.insn i fails) :=
    not_releases_of_place (by rw [hp]; exact fun h => hpc (Place.spinUnlock.inj h))
  match pc with
  | 0 =>
    refine ⟨⟨.spinUnlock 1,(s.cores i).regs⟩,s.lock.store 0,rfl,
      coreOk_of_place fun _ => Place.noConfusion,.release ⟨⟨fails,rfl⟩,hp⟩ ?_ rfl ?_⟩
    · rw [core_eta hp]
      exact holds_spinUnlock.mpr rfl
    · rw [holds_spinUnlock]
      decide
  | 1 =>
    refine ⟨⟨.outside,(s.cores i).regs⟩,s.lock,rfl,coreOk_of_place fun _ => Place.noConfusion,
      .quiet (.refl _ i) (iff_of_false not_holds_outside ?_) hacquires (hreleases (by decide))⟩
    rw [core_eta hp,holds_spinUnlock]
    decide
  | pc + 2 => exact steps_refl h hacquires (hreleases (by omega))

theorem step_cases (e : Event ι) (h : CoreOk s.lock e.core (s.cores e.core)) :
    Steps e.core s e (step s e) := by
  cases e with
  | insn i fails =>
    simp only [step,Event.core] at h ⊢
    split
    · exact insnStep_spinLock ‹_› h
    · exact insnStep_spinUnlock ‹_› h
    all_goals
      refine steps_refl h (not_acquires_of_place ?_) (not_releases_of_place ?_) <;>
        simp [*]
  | call i =>
    have hacquires : ¬ Acquires i s (.call i) := fun ha => nomatch ha.1
    have hreleases : ¬ Releases i s (.call i) := fun ⟨⟨_,hr⟩,_⟩ => nomatch hr
    simp only [step,Event.core] at h ⊢
    split
    · rename_i hp
      refine ⟨_,_,rfl,⟨by simp,by simp,by simp⟩,
        .quiet (.refl _ i) (iff_of_false ?_ ?_) hacquires hreleases⟩
      · simp [holds_spinLock]
      · rw [core_eta hp]
        exact not_holds_outside
    · rename_i hp
      refine ⟨_,_,rfl,coreOk_of_place fun _ => Place.noConfusion,
        .quiet (.refl _ i) (iff_of_true (holds_spinUnlock.mpr rfl) ?_) hacquires hreleases⟩
      rw [core_eta hp]
      exact holds_critical
    all_goals exact steps_refl h hacquires hreleases
  | other i regs monitor =>
    have hacquires : ¬ Acquires i s (.other i regs monitor) := fun ha => nomatch ha.1
    have hreleases : ¬ Releases i s (.other i regs monitor) := fun ⟨⟨_,hr⟩,_⟩ => nomatch hr
    simp only [step,Event.core] at h ⊢
    have hput (hp : ∀ pc, (s.cores i).place ≠ .spinLock pc) :
        Steps i s (.other i regs monitor)
          (s.put i { s.cores i with regs := regs } (s.lock.setMonitor i monitor)) := by
      refine ⟨_,_,rfl,coreOk_of_place hp,
        .quiet (sameFor_setMonitor _ i monitor) ?_ hacquires hreleases⟩
      simp [Core.Holds,Core.Inside,hp]
    split
    · exact hput (by simp [*])
    · exact hput (by simp [*])
    all_goals exact steps_refl h hacquires hreleases

end Steps

section Safety
variable {i : ι} {s : State ι} {owner : Option ι}

omit [DecidableEq ι] in
theorem Acquires.core {e : Event ι} (h : Acquires i s e) : i = e.core := by
  rw [h.1]
  rfl

omit [DecidableEq ι] in
theorem Releases.core {e : Event ι} (h : Releases i s e) : i = e.core := by
  obtain ⟨⟨fails,rfl⟩,_⟩ := h
  rfl

omit [DecidableEq ι] in
theorem inv_start (regs : ι → Regs) (monitor : ι → Bool) : Inv none (State.start regs monitor) where
  cores _ := coreOk_of_place fun _ => Place.noConfusion
  holds _ := iff_of_false not_holds_outside nofun
  value := rfl

omit [DecidableEq ι] in
theorem Inv.free (h : Inv owner s) (hv : s.lock.value = 0) : owner = none := by
  have hvalue := h.value
  cases owner with
  | none => rfl
  | some i => exact absurd (hvalue.symm.trans hv) (by simp)

/-- A step of core `i` keeps the invariant if the others may still rely on what they know. -/
theorem Inv.put {owner' : Option ι} {k : Core} {lock : Cell ι (BitVec 32)} (h : Inv owner s)
    (hok : CoreOk lock i k)
    (hwatch : ∀ j w, j ≠ i → s.lock.Watches j w → lock.Watches j w)
    (hself : k.Holds ↔ owner' = some i) (hother : ∀ j, j ≠ i → (owner = some j ↔ owner' = some j))
    (hvalue : lock.value = if owner'.isSome then 1 else 0) : Inv owner' (s.put i k lock) where
  cores j := by
    by_cases hj : j = i
    · subst hj
      rwa [State.put_self]
    · rw [State.put_other hj]
      exact ⟨(h.cores j).one,fun hp => hwatch j _ hj ((h.cores j).loaded hp),(h.cores j).free⟩
  holds j := by
    by_cases hj : j = i
    · subst hj
      rwa [State.put_self]
    · rw [State.put_other hj,h.holds]
      exact hother j hj
  value := hvalue

/-- One step of any core: the lock changes hands only through `Acquires` and `Releases`. -/
theorem Inv.step (h : Inv owner s) (e : Event ι) :
    ∃ owner', Inv owner' (step s e) ∧
      ∀ i, owner' = some i ↔ Acquires i s e ∨ (owner = some i ∧ ¬ Releases i s e) := by
  obtain ⟨k,lock,hstep,hok,heffect⟩ := step_cases e (h.cores e.core)
  rw [hstep]
  have hother (j : ι) (hj : j ≠ e.core) : some e.core ≠ some j :=
    fun he => hj (Option.some.inj he).symm
  cases heffect with
  | quiet same holds acquires releases =>
    refine ⟨owner,h.put hok (fun j w hj hw => hw.other same hj) (holds.trans (h.holds _))
      (fun _ _ => Iff.rfl) (same.value.trans h.value),fun j => ?_⟩
    have ha : ¬ Acquires j s e := fun ha => acquires (ha.core ▸ ha)
    have hr : ¬ Releases j s e := fun hr => releases (hr.core ▸ hr)
    simp only [ha,hr,false_or,not_false_eq_true,and_true]
  | acquire acquires free stored holds =>
    obtain rfl := h.free free
    subst stored
    refine ⟨some e.core,h.put hok (fun j w _ _ => watches_store _ j 1 w) (iff_of_true holds rfl)
      (fun j hj => iff_of_false nofun (hother j hj)) rfl,fun j => ?_⟩
    refine ⟨fun he => .inl (Option.some.inj he ▸ acquires),?_⟩
    rintro (ha | ⟨he,_⟩)
    · exact congrArg some ha.core.symm
    · exact nomatch he
  | release releases held stored holds =>
    obtain rfl := (h.holds e.core).mp held
    subst stored
    refine ⟨none,h.put hok (fun j w _ _ => watches_store _ j 0 w) (iff_of_false holds nofun)
      (fun j hj => iff_of_false (hother j hj) nofun) rfl,fun j => ⟨nofun,?_⟩⟩
    rintro (ha | ⟨he,hr⟩)
    · -- the place of a successful STLXR is not that of the store
      obtain rfl := ha.core
      exact nomatch ha.2.1.symm.trans releases.2
    · exact absurd (Option.some.inj he ▸ releases) hr

/-- In every run the owner is the core that has stored last in spin_lock, and not since in
spin_unlock. -/
theorem inv_run (regs : ι → Regs) (monitor : ι → Bool) (es : List (Event ι)) :
    ∃ owner, Inv owner (exec step (State.start regs monitor) es) ∧
      ∀ i, owner = some i ↔ Since step (Acquires i) (Releases i) (State.start regs monitor) es := by
  refine exec_history (P := fun _ _ => True) (I := fun es s => ∃ owner, Inv owner s ∧
    ∀ i, owner = some i ↔ Since step (Acquires i) (Releases i) (State.start regs monitor) es)
    ⟨none,inv_start regs monitor,fun i => ?_⟩ ?_ (along_true step _ es)
  · exact iff_of_false nofun (not_since_nil step _ _ _)
  · rintro pre e ⟨owner,hinv,howner⟩ _
    obtain ⟨owner',hinv',howner'⟩ := hinv.step e
    refine ⟨owner',hinv',fun i => ?_⟩
    rw [howner',since_snoc,howner]

end Safety

section Moves
variable {s : State ι} {i j : ι} {pc : Nat}

theorem insnStep_other (code : List Insn) (within : Nat → Place) (back : Place) (fails : Bool)
    (hj : j ≠ i) :
    (s.insnStep code within back i fails pc).cores j = s.cores j := by
  unfold State.insnStep
  cases code[pc]? with
  | none => rfl
  | some insn => exact State.put_other hj _ _ s

theorem cores_step {e : Event ι} (hj : j ≠ e.core) : (step s e).cores j = s.cores j := by
  cases e with
  | insn i fails =>
    simp only [step]
    split
    · exact insnStep_other _ _ _ fails hj
    · exact insnStep_other _ _ _ fails hj
    all_goals rfl
  | call i =>
    simp only [step]
    split
    · exact State.put_other hj _ _ s
    · exact State.put_other hj _ _ s
    all_goals rfl
  | other i regs monitor =>
    simp only [step]
    split
    · exact State.put_other hj _ _ s
    · exact State.put_other hj _ _ s
    all_goals rfl

theorem spinLock_mov (fails : Bool) (hp : (s.cores i).place = .spinLock 0) :
    step s (.insn i fails) = s.put i ⟨.spinLock 1,(s.cores i).regs.set .w1 1⟩ s.lock := by
  simp only [step,hp]
  rfl

theorem spinLock_ldaxr (fails : Bool) (hp : (s.cores i).place = .spinLock 1) :
    step s (.insn i fails) = s.put i ⟨.spinLock 2,(s.cores i).regs.set .w2 s.lock.value⟩
      (s.lock.loadExclusive i) := by
  simp only [step,hp]
  rfl

theorem spinLock_cbz (fails : Bool) (hp : (s.cores i).place = .spinLock 2) :
    step s (.insn i fails) = s.put i
      ⟨.spinLock (if (s.cores i).regs .w2 = 0 then 5 else 3),(s.cores i).regs⟩ s.lock := by
  simp only [step,hp]
  rfl

theorem spinLock_wfe (fails : Bool) (hp : (s.cores i).place = .spinLock 3) :
    step s (.insn i fails) = s.put i ⟨.spinLock 4,(s.cores i).regs⟩ s.lock := by
  simp only [step,hp]
  rfl

theorem spinLock_b (fails : Bool) (hp : (s.cores i).place = .spinLock 4) :
    step s (.insn i fails) = s.put i ⟨.spinLock 1,(s.cores i).regs⟩ s.lock := by
  simp only [step,hp]
  rfl

theorem spinLock_stlxr (fails : Bool) (hp : (s.cores i).place = .spinLock 5) :
    step s (.insn i fails) =
      let r := s.lock.storeExclusive i ((s.cores i).regs .w1) fails
      s.put i ⟨.spinLock 6,(s.cores i).regs.set .w3 (if r.1 then 0 else 1)⟩ r.2 := by
  simp only [step,hp]
  rfl

theorem spinLock_cbnz (fails : Bool) (hp : (s.cores i).place = .spinLock 6) :
    step s (.insn i fails) = s.put i
      ⟨.spinLock (if (s.cores i).regs .w3 ≠ 0 then 1 else 7),(s.cores i).regs⟩ s.lock := by
  simp only [step,hp]
  rfl

theorem place_spinLock (fails : Bool) (hp : (s.cores i).place = .spinLock pc) (hpc : pc ≠ 7) :
    ∃ pc', ((step s (.insn i fails)).cores i).place = .spinLock pc' := by
  simp only [step,hp]
  match pc with
  | 0 | 1 | 2 | 3 | 4 | 5 | 6 => exact ⟨_,congrArg Core.place (State.put_self ..)⟩
  | pc + 8 => exact ⟨_,hp⟩

theorem place_ret (fails : Bool) (hp : (s.cores i).place = .spinLock 7) :
    ((step s (.insn i fails)).cores i).place = .critical := by
  simp only [step,hp]
  exact congrArg Core.place (State.put_self ..)

theorem place_spinUnlock (fails : Bool) (hp : (s.cores i).place = .spinUnlock pc) :
    ((step s (.insn i fails)).cores i).place = .outside ∨
      ∃ pc', ((step s (.insn i fails)).cores i).place = .spinUnlock pc' := by
  simp only [step,hp]
  match pc with
  | 0 => exact .inr ⟨_,congrArg Core.place (State.put_self ..)⟩
  | 1 => exact .inl (congrArg Core.place (State.put_self ..))
  | pc + 2 => exact .inr ⟨_,hp⟩

theorem insn_outside (fails : Bool)
    (hp : (s.cores i).place = .outside ∨ (s.cores i).place = .critical) :
    step s (.insn i fails) = s := by
  rcases hp with hp | hp <;> simp only [step,hp]

theorem place_call (hp : (s.cores i).place = .outside) :
    ((step s (.call i)).cores i).place = .spinLock 0 := by
  simp only [step,hp]
  exact congrArg Core.place (State.put_self ..)

theorem place_done (hp : (s.cores i).place = .critical) :
    ((step s (.call i)).cores i).place = .spinUnlock 0 := by
  simp only [step,hp]
  exact congrArg Core.place (State.put_self ..)

theorem place_other (regs : Regs) (monitor : Bool)
    (hp : (s.cores i).place = .outside ∨ (s.cores i).place = .critical) :
    ((step s (.other i regs monitor)).cores i).place = (s.cores i).place := by
  rcases hp with hp | hp
  all_goals
    simp only [step,hp]
    exact congrArg Core.place (State.put_self ..)

end Moves

structure Excludes (s : State ι) (es : List (Event ι)) : Prop where
  alone : ∀ i j, ((exec step s es).cores i).Inside → ((exec step s es).cores j).Inside → i = j
  word : (exec step s es).lock.value = 0 ∨ (exec step s es).lock.value = 1
  held : (exec step s es).lock.value = 1 ↔ ∃ i, Since step (Acquires i) (Releases i) s es

/-- At most one core is between the return of spin_lock and the store of spin_unlock, and the
lock word is 1 from the successful STLXR of a core to its store. -/
theorem mutual_exclusion (regs : ι → Regs) (monitor : ι → Bool) (es : List (Event ι)) :
    Excludes (State.start regs monitor) es := by
  obtain ⟨owner,hinv,howner⟩ := inv_run regs monitor es
  have hinside (i : ι) (h : ((exec step (State.start regs monitor) es).cores i).Inside) :
      owner = some i := (hinv.holds i).mp (.inr (.inr h))
  have hvalue := hinv.value
  refine ⟨fun i j hi hj => Option.some.inj ((hinside i hi).symm.trans (hinside j hj)),?_,?_⟩
  · cases owner with
    | none => exact .inl hvalue
    | some i => exact .inr hvalue
  · simp only [← howner]
    cases owner with
    | none => exact iff_of_false (by rw [hvalue]; simp) fun ⟨_,h⟩ => nomatch h
    | some i => exact iff_of_true hvalue ⟨i,rfl⟩

/-- Two cores load a free lock. The one that stores second tries again, waits, and gets in
once the other is out. -/
example :
    let lock (i : Bool) : List (Event Bool) := .call i :: List.replicate 3 (.insn i false)
    let s := exec step (State.start (fun _ : Bool => fun _ => 0) fun _ => false)
      (lock true ++ lock false ++ List.replicate 3 (.insn true false) ++
        List.replicate 5 (.insn false false) ++ [.call true,.insn true false] ++
        List.replicate 6 (.insn false false))
    (s.cores true).place = .spinUnlock 1 ∧ (s.cores false).place = .critical ∧
      s.lock.value = 1 := by
  decide

end Arm64.Spinlock

import Arm64Baremetal.SchedIntegrity
import Arm64Baremetal.SchedLoops

set_option autoImplicit false

namespace Arm64
open IntrusiveQueue

variable {s : Sched} {xs : QueueId → List TaskRef} {c : SchedCore} {t : TaskRef}

theorem reaperService_sweeps (h : SchedInv s s.current xs) :
    ∃ s', s.reaperService = some s' ∧ Swept s s' (xs .zombieQ) ∧
      Represents s'.next (s'.queues .zombieQ) ((xs .zombieQ).filter fun t => !s.released t) := by
  obtain ⟨s',hs,hswept,hq⟩ := reaperService_exact h.queues h.onStack
  exact ⟨s',hs,hswept.swept,hq.represents .zombieQ⟩

/-- A zombie that has been switched out has been given up by its core. -/
def ZombiesReleased (s : Sched) : Prop :=
  ∀ t, s.state t = .zombie → ¬ Current s.current t → (s.tasks t).coreId = 0xFF

theorem ZombiesReleased.update (h : ZombiesReleased s) {s' : Sched} {k : Task}
    (hcur : s'.current = s.current) (htasks : s'.tasks = Function.update s.tasks t k)
    (hk : k.state = .zombie → Current s.current t) : ZombiesReleased s' := by
  intro u hu hno
  rw [hcur] at hno
  by_cases hut : u = t
  · subst hut
    rw [Sched.state,htasks,Function.update_self] at hu
    exact absurd (hk hu) hno
  · rw [Sched.state,htasks,Function.update_of_ne hut] at hu
    rw [htasks,Function.update_of_ne hut]
    exact h u hu hno

theorem createTask_tasks (entry exit stack : BitVec 64) :
    (∃ i, s.emptySlot = some i ∧ (s.createTask entry exit stack).tasks =
      Function.update s.tasks (.pool i) (s.newTask stack (.pool i))) ∨
    s.emptySlot = none ∧ (s.createTask entry exit stack).tasks = s.tasks := by
  cases hi : s.emptySlot with
  | none =>
    simp only [Sched.createTask,hi]
    exact .inr ⟨trivial,rfl⟩
  | some i =>
    obtain ⟨io,hs⟩ := createTask_eq hi entry exit stack
    rw [hs]
    exact .inl ⟨i,rfl,rfl⟩

theorem createTask_released (h : ZombiesReleased s) (entry exit stack : BitVec 64) :
    ZombiesReleased (s.createTask entry exit stack) := by
  have hcur := createTask_current (s := s) entry exit stack
  rcases createTask_tasks (s := s) entry exit stack with ⟨i,_,ht⟩ | ⟨_,ht⟩
  · exact h.update hcur ht nofun
  · intro u
    rw [Sched.state,ht,hcur]
    exact h u

theorem taskExit_released (h : ZombiesReleased s) (c : SchedCore) :
    ZombiesReleased (s.taskExit c) := by
  unfold Sched.taskExit
  split
  · exact h
  next t hc => exact h.update rfl rfl fun _ => ⟨c,hc⟩

theorem msleep_released (h : ZombiesReleased s) (c : SchedCore) (ms : BitVec 32)
    (now : BitVec 64) : ZombiesReleased (s.msleep c ms now) := by
  unfold Sched.msleep
  split
  · exact h
  · exact h.update rfl rfl (by simp)

theorem Wakes.released {s' : Sched} (hw : Wakes s s') (hcur : s'.current = s.current)
    (h : ZombiesReleased s) : ZombiesReleased s' := by
  intro u hu hno
  rw [hcur] at hno
  rcases hw u with hk | ⟨_,hk⟩
  · rw [Sched.state,hk] at hu
    rw [hk]
    exact h u hu hno
  · rw [Sched.state,hk] at hu
    exact absurd hu (by simp)

theorem Swept.released {s' : Sched} {zs : List TaskRef} (hw : Swept s s' zs)
    (h : ZombiesReleased s) : ZombiesReleased s' := by
  intro u hu hno
  rw [hw.current] at hno
  have hz : ¬ (u ∈ zs ∧ s.released u) := by
    intro hm
    rw [Sched.state,hw.tasks u,if_pos hm] at hu
    exact absurd hu (by decide)
  rw [Sched.state,hw.tasks u,if_neg hz] at hu
  rw [hw.tasks u,if_neg hz]
  exact h u hu hno

theorem setTask_field {α : Type*} (f : Task → α) {k : Task} (hk : f k = f (s.tasks t))
    (u : TaskRef) : f ((s.setTask t k).tasks u) = f (s.tasks u) := by
  by_cases hu : u = t
  · subst hu
    simpa [Sched.setTask] using hk
  · simp [Sched.setTask,hu]

theorem putAway_field {α : Type*} (f : Task → α) (hf : ∀ k st, f { k with state := st } = f k)
    (c : SchedCore) (t u : TaskRef) : f ((s.putAway c t).tasks u) = f (s.tasks u) := by
  unfold Sched.putAway
  split
  · rfl
  · split
    · exact setTask_field f (hf _ _) u
    · rfl
  · rfl

theorem signalGc_tasks (c : SchedCore) (t : TaskRef) : (s.signalGc c t).tasks = s.tasks := by
  unfold Sched.signalGc
  split <;> rfl

theorem scheduleTask_field {α : Type*} (f : Task → α)
    (hframe : ∀ k v, f { k with frame := v } = f k)
    (hstate : ∀ k st, f { k with state := st } = f k)
    (hcore : ∀ k id, f { k with coreId := id } = f k) (hc : s.current c = some t)
    (frame : BitVec 64) (u : TaskRef) :
    f ((s.scheduleTask c frame).2.tasks u) = f (s.tasks u) := by
  have hrelease : ∀ (s : Sched) (n : TaskRef),
      f ((s.releaseCore t n).tasks u) = f (s.tasks u) := by
    intro s n
    unfold Sched.releaseCore
    split
    · exact setTask_field f (hcore _ _) u
    · rfl
  simp only [Sched.scheduleTask,hc,Sched.pickNext]
  have hrun : ∀ k id, f { k with state := .running, coreId := id } = f k := fun k id =>
    (hcore { k with state := .running } id).trans (hstate k .running)
  refine (setTask_field f (hrun _ _) u).trans ?_
  rw [signalGc_tasks,hrelease]
  refine (putAway_field f hstate c t u).trans ?_
  exact setTask_field f (hframe _ _) u

theorem scheduleTask_stackBase (hc : s.current c = some t) (frame : BitVec 64) (u : TaskRef) :
    ((s.scheduleTask c frame).2.tasks u).stackBase = (s.tasks u).stackBase :=
  scheduleTask_field Task.stackBase (fun _ _ => rfl) (fun _ _ => rfl) (fun _ _ => rfl) hc frame u

theorem scheduleTask_coreId (hc : s.current c = some t) (frame : BitVec 64) {n u : TaskRef}
    (hn : (s.scheduleTask c frame).1 = some n) (hu : u ≠ n) :
    ((s.scheduleTask c frame).2.tasks u).coreId = if u = t then 0xFF else (s.tasks u).coreId := by
  have hrelease : ∀ s : Sched, ((s.releaseCore t n).tasks u).coreId =
      if u = t then 0xFF else (s.tasks u).coreId := by
    intro s
    unfold Sched.releaseCore
    by_cases hut : u = t
    · subst hut
      simp [Sched.setTask,hu]
    · split <;> simp [Sched.setTask,hut]
  simp only [Sched.scheduleTask,hc,Sched.pickNext,Option.some.injEq] at hn ⊢
  rw [hn]
  refine (congrArg Task.coreId (Function.update_of_ne hu _ _)).trans ?_
  rw [signalGc_tasks,hrelease]
  split
  · rfl
  · refine (putAway_field Task.coreId (fun _ _ => rfl) c t u).trans ?_
    exact setTask_field Task.coreId (by rfl) u

theorem scheduleTask_released (h : ZombiesReleased s) (hi : SchedInv s s.current xs)
    (hc : s.current c = some t) (frame : BitVec 64) {n : TaskRef}
    (hn : (s.scheduleTask c frame).1 = some n)
    (hno : ¬ Current (Function.update s.current c none) n) :
    ZombiesReleased (s.scheduleTask c frame).2 := by
  obtain ⟨hcur,hrun,hst,_⟩ := scheduleTask_inv hi hc frame hn hno
  intro u hu hnot
  rw [hcur] at hnot
  have hun : u ≠ n := by
    rintro rfl
    exact absurd (hrun.symm.trans hu) (by decide)
  rw [scheduleTask_coreId hc frame hn hun]
  by_cases hut : u = t
  · rw [if_pos hut]
  · rw [if_neg hut]
    refine h u ((hst u hut hun).symm.trans hu) ?_
    rintro ⟨d,hd⟩
    have hdc : d ≠ c := by
      rintro rfl
      exact hut (Option.some.inj (hd.symm.trans hc))
    exact hnot ⟨d,(Function.update_of_ne hdc _ _).trans hd⟩

end Arm64

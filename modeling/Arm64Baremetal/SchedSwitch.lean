import Arm64Baremetal.SchedInvariant

set_option autoImplicit false

namespace Arm64
open IntrusiveQueue

variable {s : Sched} {cur : SchedCore → Option TaskRef} {xs : QueueId → List TaskRef}
  {c : SchedCore} {t : TaskRef}

theorem putAway_inv (h : SchedInv s cur xs) (hc : cur c = some t) :
    ∃ xs', SchedInv (s.putAway c t) (Function.update cur c none) xs' ∧
      (xs' .readyQ = xs .readyQ ∨ xs' .readyQ = xs .readyQ ++ [t]) := by
  have hcur : Current cur t := ⟨c,hc⟩
  unfold Sched.putAway
  cases ht : (s.tasks t).state with
  | zombie =>
    have hn := h.not_mem (t := t) (by simp [Sched.state,ht]) (by simp [Sched.state,ht])
      fun _ => hcur
    exact ⟨_,⟨h.queues.enqueue .zombieQ hn,(h.filed.away_zombie hc ht).congr (by simp) (by simp)
      (by simp),by simpa using h.onStack⟩,by simp⟩
  | running =>
    have hn := h.not_mem (t := t) (by simp [Sched.state,ht]) (by simp [Sched.state,ht])
      fun _ => hcur
    by_cases hi : t = .idle c
    · simp only [ne_eq,hi,not_true_eq_false,if_false]
      exact ⟨xs,⟨h.queues,h.filed.away_other hc (by simp [Sched.state,ht]) (.inr ⟨c,hi⟩),
        h.onStack⟩,.inl rfl⟩
    · have hp : ∀ d, t ≠ .idle d := by
        rintro d rfl
        exact hi (by rw [h.filed.ownIdle c d hc])
      simp only [ne_eq,hi,not_false_eq_true,if_true]
      exact ⟨_,h.enqueue (q := .readyQ) hn (by decide)
        ((h.filed.away_running hc ht hp).congr (by simp) (by simp) (by simp)),.inr (by simp)⟩
  | ready =>
    exact ⟨xs,⟨h.queues,h.filed.away_other hc (by simp [Sched.state,ht])
      (.inl (by simp [Sched.state,ht])),h.onStack⟩,.inl rfl⟩
  | sleeping =>
    exact ⟨xs,⟨h.queues,h.filed.away_other hc (by simp [Sched.state,ht])
      (.inl (by simp [Sched.state,ht])),h.onStack⟩,.inl rfl⟩
  | empty =>
    exact ⟨xs,⟨h.queues,h.filed.away_other hc (by simp [Sched.state,ht])
      (.inl (by simp [Sched.state,ht])),h.onStack⟩,.inl rfl⟩

theorem putAway_frame (s : Sched) (c : SchedCore) (t : TaskRef) :
    (s.putAway c t).current = s.current ∧ ∀ u, u ≠ t → (s.putAway c t).state u = s.state u := by
  unfold Sched.putAway
  split
  · exact ⟨rfl,fun _ _ => rfl⟩
  · split
    · refine ⟨rfl,fun u hu => ?_⟩
      change (s.setState t .ready).state u = _
      rw [Sched.setState,Sched.state_setTask,Function.update_of_ne hu]
    · exact ⟨rfl,fun _ _ => rfl⟩
  · exact ⟨rfl,fun _ _ => rfl⟩

/-- What happens between the dequeue and the switch concerns neither queues nor states. -/
structure SameQueues (s s' : Sched) : Prop where
  next : s'.next = s.next
  queues : s'.queues = s.queues
  current : s'.current = s.current
  state : s'.state = s.state

theorem releaseCore_same (s : Sched) (t n : TaskRef) : SameQueues s (s.releaseCore t n) := by
  unfold Sched.releaseCore
  split
  · refine ⟨rfl,rfl,rfl,?_⟩
    rw [Sched.state_setTask]
    exact Function.update_eq_self t s.state
  · exact ⟨rfl,rfl,rfl,rfl⟩

theorem signalGc_same (s : Sched) (c : SchedCore) (t : TaskRef) :
    SameQueues s (s.signalGc c t) := by
  unfold Sched.signalGc
  split
  · exact ⟨rfl,rfl,rfl,rfl⟩
  · exact ⟨rfl,rfl,rfl,rfl⟩

theorem pickNext_spec (s : Sched) (c : SchedCore) (t : TaskRef) :
    let r := s.taskDequeue .readyQ
    let n := r.1.getD (.idle c)
    (s.pickNext c t).1 = n ∧ (s.pickNext c t).2.next = r.2.next ∧
    (s.pickNext c t).2.queues = r.2.queues ∧
    (s.pickNext c t).2.current = Function.update r.2.current c (some n) ∧
    (s.pickNext c t).2.state = Function.update r.2.state n .running := by
  intro r n
  have h1 := releaseCore_same r.2 t n
  have h2 := signalGc_same (r.2.releaseCore t n) c t
  refine ⟨rfl,h2.next.trans h1.next,h2.queues.trans h1.queues,?_,?_⟩
  · change Function.update ((r.2.releaseCore t n).signalGc c t).current c (some n) = _
    rw [h2.current,h1.current]
  · change (Sched.setTask n _ ((r.2.releaseCore t n).signalGc c t)).state = _
    rw [Sched.state_setTask,h2.state,h1.state]

theorem update_away (cur : SchedCore → Option TaskRef) (c : SchedCore) (n : TaskRef) :
    Function.update (Function.update cur c none) c (some n) = Function.update cur c (some n) :=
  Function.update_idem ..

theorem pickNext_inv (h : SchedInv s (Function.update s.current c none) xs) (t : TaskRef)
    (hhead : ∀ u, (xs .readyQ).head? = some u → ¬ Current (Function.update s.current c none) u) :
    ∃ xs', SchedInv (s.pickNext c t).2 (s.pickNext c t).2.current xs' := by
  obtain ⟨_,hnext,hqueues,hcur,hstate⟩ := pickNext_spec s c t
  cases hx : xs .readyQ with
  | nil =>
    rw [taskDequeue_nil h.queues hx] at hnext hqueues hcur hstate
    refine ⟨xs,?_,?_,h.onStack⟩
    · rw [hnext,hqueues]
      exact h.queues
    · rw [hcur,hstate,Option.getD_none,← update_away]
      exact h.filed.pick_idle (by simp)
  | cons u ts =>
    obtain ⟨s',hs,htasks,hcur',hq',hn⟩ := taskDequeue_cons h.queues hx
    rw [hs] at hnext hqueues hcur hstate
    have hst : s'.state = s.state := by funext v; simp only [Sched.state,htasks]
    have hu := hhead u (by rw [hx]; rfl)
    have hp := h.filed.pick (t := u) (c := c) (by simp) (by simp [hx]) hu
    refine ⟨Function.update xs .readyQ ts,?_,?_,by simpa using h.onStack⟩
    · rw [hnext,hqueues]
      exact hq'
    · rw [hcur,hstate,Option.getD_some,hst,hcur',← update_away]
      refine hp.congr (fun v => ?_) (by simp) (by simp)
      have hut : u ∉ ts := by simpa using hn .readyQ
      by_cases hv : v = u
      · subst hv; simp [hut]
      · simp [hx,hv]

theorem setFrame_state (s : Sched) (t : TaskRef) (frame : BitVec 64) :
    (s.setTask t { s.tasks t with frame := frame }).state = s.state := by
  rw [Sched.state_setTask]
  exact Function.update_eq_self t s.state

theorem setFrame_inv (h : SchedInv s cur xs) (t : TaskRef) (frame : BitVec 64) :
    SchedInv (s.setTask t { s.tasks t with frame := frame }) cur xs := by
  refine ⟨h.queues,?_,h.onStack⟩
  rw [setFrame_state]
  exact h.filed

theorem scheduleTask_takes (h : SchedInv s s.current xs) (hc : s.current c = some t)
    (frame : BitVec 64) :
    ∃ n, (s.scheduleTask c frame).1 = some n ∧
      ((xs .readyQ).head? = some n ∨ n = t ∨ n = .idle c) := by
  simp only [Sched.scheduleTask,hc]
  obtain ⟨ys,h2,hy⟩ := putAway_inv (setFrame_inv h t frame) hc
  obtain ⟨hnext,_⟩ := pickNext_spec
    ((s.setTask t { s.tasks t with frame := frame }).putAway c t) c t
  refine ⟨_,rfl,?_⟩
  rw [hnext,taskDequeue_fst h2.queues]
  cases hx : xs .readyQ with
  | nil => rcases hy with hy | hy <;> simp [hy,hx]
  | cons u us => rcases hy with hy | hy <;> simp [hy,hx]

/-- schedule_task keeps the invariant, unless it takes a task that is current elsewhere. -/
theorem scheduleTask_inv (h : SchedInv s s.current xs) (hc : s.current c = some t)
    (frame : BitVec 64) {n : TaskRef} (hn : (s.scheduleTask c frame).1 = some n)
    (hno : ¬ Current (Function.update s.current c none) n) :
    (s.scheduleTask c frame).2.current = Function.update s.current c (some n) ∧
    (s.scheduleTask c frame).2.state n = .running ∧
    (∀ u, u ≠ t → u ≠ n → (s.scheduleTask c frame).2.state u = s.state u) ∧
    ∃ xs', SchedInv (s.scheduleTask c frame).2 (s.scheduleTask c frame).2.current xs' := by
  simp only [Sched.scheduleTask,hc] at hn ⊢
  obtain ⟨ys,h2,_⟩ := putAway_inv (setFrame_inv h t frame) hc
  obtain ⟨hcur,hst⟩ := putAway_frame (s.setTask t { s.tasks t with frame := frame }) c t
  obtain ⟨hnext,_,_,hcur',hst'⟩ := pickNext_spec
    ((s.setTask t { s.tasks t with frame := frame }).putAway c t) c t
  have hcur : ((s.setTask t { s.tasks t with frame := frame }).putAway c t).current =
      s.current := hcur
  rw [← hnext,Option.some.inj hn] at hcur' hst'
  rw [← hcur] at h2
  obtain ⟨zs,h3⟩ := pickNext_inv h2 t fun u hu => by
    rw [hcur]
    have hun : u = n := by
      rw [← Option.some.inj hn,hnext,taskDequeue_fst h2.queues,hu]
      rfl
    exact hun ▸ hno
  refine ⟨?_,?_,fun u hut hun => ?_,zs,h3⟩
  · rw [hcur']
    exact congrArg (fun k => Function.update k c (some n)) hcur
  · rw [hst',Function.update_self]
  · rw [hst',Function.update_of_ne hun]
    exact (hst u hut).trans (congrFun (setFrame_state s t frame) u)

/-- A task that is in use stays in use and keeps its saved frame. -/
structure KeepsTasks (s s' : Sched) : Prop where
  alive : ∀ u, s.state u ≠ .empty → s'.state u ≠ .empty
  frame : ∀ u, s.state u ≠ .empty → (s'.tasks u).frame = (s.tasks u).frame

theorem KeepsTasks.refl (s : Sched) : KeepsTasks s s := ⟨fun _ h => h,fun _ _ => rfl⟩

theorem KeepsTasks.trans {s₁ s₂ s₃ : Sched} (h : KeepsTasks s₁ s₂) (h' : KeepsTasks s₂ s₃) :
    KeepsTasks s₁ s₃ where
  alive u hu := h'.alive u (h.alive u hu)
  frame u hu := (h'.frame u (h.alive u hu)).trans (h.frame u hu)

theorem KeepsTasks.of_tasks {s' : Sched} (h : s'.tasks = s.tasks) : KeepsTasks s s' where
  alive u hu := by simpa only [Sched.state,h] using hu
  frame u _ := by rw [h]

theorem KeepsTasks.of_update {s' : Sched} {k : Task} (h : s'.tasks = Function.update s.tasks t k)
    (hk : k.state ≠ .empty) (hf : s.state t ≠ .empty → k.frame = (s.tasks t).frame) :
    KeepsTasks s s' := by
  constructor
  · intro u hu
    simp only [Sched.state,h,Function.update_apply]
    split
    · exact hk
    · exact hu
  · intro u hu
    simp only [h,Function.update_apply]
    split
    · rename_i hut
      subst hut
      exact hf hu
    · rfl

theorem createTask_keeps (entry exit stack : BitVec 64) :
    KeepsTasks s (s.createTask entry exit stack) := by
  cases hi : s.emptySlot with
  | none =>
    simp only [Sched.createTask,hi]
    exact .of_tasks rfl
  | some i =>
    have he : s.state (.pool i) = .empty := emptySlot_state hi
    obtain ⟨io,hs⟩ := createTask_eq hi entry exit stack
    rw [hs]
    exact .of_update (t := .pool i) (k := s.newTask stack (.pool i)) rfl (by simp [Sched.newTask])
      (absurd he)

theorem taskExit_keeps (c : SchedCore) : KeepsTasks s (s.taskExit c) := by
  unfold Sched.taskExit
  split
  · exact .refl s
  · exact .of_update rfl (by simp) fun _ => rfl

theorem msleep_keeps (c : SchedCore) (ms : BitVec 32) (now : BitVec 64) :
    KeepsTasks s (s.msleep c ms now) := by
  unfold Sched.msleep
  split
  · exact .refl s
  · exact .of_update rfl (by simp) fun _ => rfl

theorem Wakes.keeps {s' : Sched} (h : Wakes s s') : KeepsTasks s s' where
  alive u hu := by
    rcases h u with hk | ⟨_,hk⟩
    · simpa only [Sched.state,hk] using hu
    · simp [Sched.state,hk]
  frame u _ := by
    rcases h u with hk | ⟨_,hk⟩
    · rw [hk]
    · rw [hk]

theorem initSchedCore_keeps (c : SchedCore) : KeepsTasks s (s.initSchedCore c) :=
  .of_update rfl (by simp) fun _ => rfl

theorem putAway_keeps (c : SchedCore) (t : TaskRef) : KeepsTasks s (s.putAway c t) := by
  unfold Sched.putAway
  split
  · exact .of_tasks rfl
  · split
    · exact .of_update rfl (by simp) fun _ => rfl
    · exact .refl s
  · exact .refl s

theorem pickNext_keeps (c : SchedCore) (ht : s.state t ≠ .empty) :
    KeepsTasks s (s.pickNext c t).2 := by
  have h1 : KeepsTasks s (s.taskDequeue .readyQ).2 := .of_tasks rfl
  have h2 : ∀ n, KeepsTasks (s.taskDequeue .readyQ).2
      ((s.taskDequeue .readyQ).2.releaseCore t n) := by
    intro n
    unfold Sched.releaseCore
    split
    · exact .of_update rfl (h1.alive t ht) fun _ => rfl
    · exact .refl _
  have h3 : ∀ s : Sched, KeepsTasks s (s.signalGc c t) := by
    intro s
    unfold Sched.signalGc
    split
    · exact .of_tasks rfl
    · exact .refl s
  exact ((h1.trans (h2 _)).trans (h3 _)).trans (.of_update rfl (by simp) fun _ => rfl)

theorem scheduleTask_keeps (hc : s.current c = some t) (ht : s.state t ≠ .empty)
    (frame : BitVec 64) :
    KeepsTasks (s.setTask t { s.tasks t with frame := frame }) (s.scheduleTask c frame).2 := by
  simp only [Sched.scheduleTask,hc]
  have ht' : (s.setTask t { s.tasks t with frame := frame }).state t ≠ .empty := by
    rwa [setFrame_state]
  have h := putAway_keeps (s := s.setTask t { s.tasks t with frame := frame }) c t
  exact h.trans (pickNext_keeps c (h.alive t ht'))

end Arm64

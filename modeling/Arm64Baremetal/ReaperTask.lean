import Arm64Baremetal.SchedLoops

/-!
reaper_task, which takes one zombie in each turn of its loop and gives sched_lock back in
between. A round of turns through zombie_q is one reaper_service.
-/

set_option autoImplicit false

namespace Arm64
open IntrusiveQueue

/-- What a turn of the loop in reaper_task does while it holds sched_lock. -/
def Sched.reaperTaskTurn (s : Sched) : Sched :=
  match s.taskDequeue .zombieQ with
  | (none,s) => s
  | (some z,s) =>
    if (s.tasks z).coreId = 0xFF then
      let s := s.emit (.printf "[REAPER] Freeing task %d\n" (some (s.tasks z).taskId))
      let s := s.emit (.freePages (s.tasks z).stackBase 3)
      { s.setTask z .zero with next := Function.update s.next z none }
    else s.taskEnqueue .zombieQ z

/-- But for what they print, two reapers have done the same. -/
structure SameReaping (s₁ s₂ : Sched) : Prop where
  tasks : s₁.tasks = s₂.tasks
  queues : s₁.queues = s₂.queues
  next : s₁.next = s₂.next
  frees : s₁.io.filterMap freed = s₂.io.filterMap freed
  rest : s₁ = { s₂ with tasks := s₁.tasks, next := s₁.next, queues := s₁.queues, io := s₁.io }

variable {s : Sched} {zs : List TaskRef} {t : TaskRef}

/-- The turns that have gone through `seen`, where `rest` is left: what they have put back is
behind it. -/
structure Turned (s₀ : Sched) (zs seen rest : List TaskRef) (s : Sched) : Prop where
  split : zs = seen ++ rest
  nodup : zs.Nodup
  zombies : Represents s.next (s.queues .zombieQ) (rest ++ seen.filter fun t => !s₀.released t)
  swept : Swept s₀ s seen
  links : ∀ t, t ∉ zs → s.next t = s₀.next t
  cleared : ∀ t ∈ seen, s₀.released t = true → s.next t = none
  queues : ∀ q, q ≠ .zombieQ → s.queues q = s₀.queues q
  rest : s = { s₀ with tasks := s.tasks, next := s.next, queues := s.queues, io := s.io }

theorem turned_start (hz : Represents s.next (s.queues .zombieQ) zs) : Turned s zs [] zs s where
  split := rfl
  nodup := hz.nodup
  zombies := by rwa [List.filter_nil,List.append_nil]
  swept := ⟨rfl,by simp,by simp⟩
  links _ _ := rfl
  cleared _ ht := absurd ht List.not_mem_nil
  queues _ _ := rfl
  rest := rfl

/-- The same once `t` has been taken out, and is in no list. -/
structure Picked (s₀ : Sched) (zs seen ts : List TaskRef) (t : TaskRef) (d : Sched) : Prop where
  split : zs = (seen ++ [t]) ++ ts
  nodup : zs.Nodup
  fresh : t ∉ seen ∧ t ∉ ts ++ seen.filter fun t => !s₀.released t
  zombies : Represents d.next (d.queues .zombieQ) (ts ++ seen.filter fun t => !s₀.released t)
  swept : Swept s₀ d seen
  links : ∀ u, u ∉ zs → d.next u = s₀.next u
  cleared : ∀ u ∈ seen, s₀.released u = true → d.next u = none
  queues : ∀ q, q ≠ .zombieQ → d.queues q = s₀.queues q
  rest : d = { s₀ with tasks := d.tasks, next := d.next, queues := d.queues, io := d.io }

section Turn
variable {s₀ d : Sched} {seen ts : List TaskRef}

theorem Turned.pick (h : Turned s₀ zs seen (t :: ts) s) :
    ∃ d, s.taskDequeue .zombieQ = (some t,d) ∧ Picked s₀ zs seen ts t d := by
  have hzs := h.nodup
  rw [h.split] at hzs
  obtain ⟨hseen,hsplit,_⟩ := split_here hzs rfl
  have htzs : t ∈ zs := h.split ▸ List.mem_append_right _ List.mem_cons_self
  have hzombies : Represents s.next (s.queues .zombieQ)
      (t :: (ts ++ seen.filter fun t => !s₀.released t)) := h.zombies
  have hlist := hzombies.dequeue
  have hnext := hzombies.dequeue_next
  refine ⟨_,Prod.ext hzombies.dequeue_fst rfl,h.split.trans hsplit,h.nodup,
    ⟨hseen,(List.nodup_cons.mp hzombies.nodup).1⟩,?_,⟨h.swept.current,h.swept.tasks,h.swept.frees⟩,
    fun u hu => ?_,fun u hu hr => ?_,fun q hq => ?_,?_⟩
  · simp only [Sched.taskDequeue,Function.update_self]
    rwa [hnext]
  · have hut : u ≠ t := fun hut => hu (hut ▸ htzs)
    simp only [Sched.taskDequeue]
    rw [hnext,Function.update_of_ne hut,h.links u hu]
  · have hut : u ≠ t := fun hut => hseen (hut ▸ hu)
    simp only [Sched.taskDequeue]
    rw [hnext,Function.update_of_ne hut,h.cleared u hu hr]
  · exact (Function.update_of_ne hq _ _).trans (h.queues q hq)
  · rw [Sched.taskDequeue,h.rest]

theorem Picked.task (h : Picked s₀ zs seen ts t d) : d.tasks t = s₀.tasks t := by
  rw [h.swept.tasks t,if_neg fun hm => h.fresh.1 hm.1]

theorem Picked.mem (h : Picked s₀ zs seen ts t d) : t ∈ zs :=
  h.split ▸ List.mem_append_left _ (List.mem_append_right _ List.mem_cons_self)

theorem Picked.mem_rest (h : Picked s₀ zs seen ts t d) {u : TaskRef}
    (hu : u ∈ ts ++ seen.filter fun t => !s₀.released t) : u ∈ zs := by
  rw [h.split]
  rcases List.mem_append.mp hu with hu | hu
  · exact List.mem_append_right _ hu
  · exact List.mem_append_left _ (List.mem_append_left _ (List.mem_of_mem_filter hu))

theorem Picked.not_mem_rest (h : Picked s₀ zs seen ts t d) {u : TaskRef} (hu : u ∈ seen)
    (hr : s₀.released u = true) : u ∉ ts ++ seen.filter fun t => !s₀.released t := by
  have hnodup := h.nodup
  rw [h.split] at hnodup
  intro hmem
  rcases List.mem_append.mp hmem with hmem | hmem
  · exact List.disjoint_of_nodup_append hnodup (List.mem_append_left _ hu) hmem
  · have hkept := (List.mem_filter.mp hmem).2
    rw [hr] at hkept
    cases hkept

/-- What the two reapers do with a task that no core has differs in a message. -/
theorem Picked.free (h : Picked s₀ zs seen ts t d) (hr : s₀.released t = true) (fmt : String)
    (arg : Option (BitVec 32)) : Turned s₀ zs (seen ++ [t]) ts
      { (d.freeZombie t) with
        io := .freePages (d.tasks t).stackBase 3 :: .printf fmt arg :: d.io } := by
  have hfilter : (seen ++ [t]).filter (fun t => !s₀.released t) =
      seen.filter fun t => !s₀.released t := by
    simp [hr]
  have hswept := h.swept.free h.fresh.1 hr
  refine ⟨h.split,h.nodup,?_,⟨hswept.current,hswept.tasks,hswept.frees⟩,fun u hu => ?_,
    fun u hu hru => ?_,h.queues,?_⟩
  · rw [hfilter]
    exact h.zombies.congr fun u hu =>
      Function.update_of_ne (fun hut : u = t => h.fresh.2 (hut ▸ hu)) _ _
  · have hut : u ≠ t := fun hut => hu (hut ▸ h.mem)
    exact (Function.update_of_ne hut _ _).trans (h.links u hu)
  · rcases List.mem_append.mp hu with hu | hu
    · have hut : u ≠ t := fun hut => h.fresh.1 (hut ▸ hu)
      exact (Function.update_of_ne hut _ _).trans (h.cleared u hu hru)
    · rw [List.mem_singleton.mp hu]
      exact Function.update_self _ _ _
  · rw [h.rest]
    rfl

theorem Picked.keep (h : Picked s₀ zs seen ts t d) (hr : s₀.released t = false) :
    Turned s₀ zs (seen ++ [t]) ts (d.taskEnqueue .zombieQ t) := by
  have hfilter : (seen ++ [t]).filter (fun t => !s₀.released t) =
      (seen.filter fun t => !s₀.released t) ++ [t] := by
    simp [hr]
  have hswept := h.swept.keep hr
  refine ⟨h.split,h.nodup,?_,⟨hswept.current,hswept.tasks,hswept.frees⟩,fun u hu => ?_,
    fun u hu hru => ?_,fun q hq => (Function.update_of_ne hq _ _).trans (h.queues q hq),?_⟩
  · rw [hfilter,← List.append_assoc]
    simp only [Sched.taskEnqueue,Function.update_self]
    exact h.zombies.enqueue h.fresh.2
  · have hut : u ≠ t := fun hut => hu (hut ▸ h.mem)
    exact (h.zombies.enqueue_next hut fun hm => hu (h.mem_rest hm)).trans (h.links u hu)
  · rcases List.mem_append.mp hu with hu | hu
    · have hut : u ≠ t := fun hut => h.fresh.1 (hut ▸ hu)
      exact (h.zombies.enqueue_next hut (h.not_mem_rest hu hru)).trans (h.cleared u hu hru)
    · rw [List.mem_singleton.mp hu,hr] at hru
      cases hru
  · rw [Sched.taskEnqueue,h.rest]

theorem Turned.turn (h : Turned s₀ zs seen (t :: ts) s) :
    Turned s₀ zs (seen ++ [t]) ts s.reaperTaskTurn := by
  obtain ⟨d,hd,hpick⟩ := h.pick
  simp only [Sched.reaperTaskTurn,hd]
  cases hr : s₀.released t with
  | true =>
    have hid : (d.tasks t).coreId = 0xFF := by
      rw [hpick.task]
      exact of_decide_eq_true hr
    rw [if_pos hid]
    exact hpick.free hr _ _
  | false =>
    have hid : ¬ (d.tasks t).coreId = 0xFF := by
      rw [hpick.task]
      exact of_decide_eq_false hr
    rw [if_neg hid]
    exact hpick.keep hr

end Turn

theorem turned_round (hz : Represents s.next (s.queues .zombieQ) zs) :
    Turned s zs zs [] (Sched.reaperTaskTurn^[zs.length] s) := by
  have hturns : ∀ (rest seen : List TaskRef) (s' : Sched), Turned s zs seen rest s' →
      Turned s zs (seen ++ rest) [] (Sched.reaperTaskTurn^[rest.length] s') := by
    intro rest
    induction rest with
    | nil =>
      intro seen s' h
      rwa [List.append_nil]
    | cons t ts ih =>
      intro seen s' h
      have hnext := ih (seen ++ [t]) _ h.turn
      rwa [List.append_assoc] at hnext
  exact hturns zs [] s (turned_start hz)

theorem represents_eq {next next' : TaskRef → Option TaskRef} {q q' : Queue TaskRef}
    (h : Represents next q zs) (h' : Represents next' q' zs) : q = q' := by
  obtain ⟨head,tail⟩ := q
  obtain ⟨head',tail'⟩ := q'
  obtain rfl : head = head' := h.head_eq.trans h'.head_eq.symm
  obtain rfl : tail = tail' := h.tail.trans h'.tail.symm
  rfl

/-- As many turns of reaper_task as there are zombies do what one reaper_service does. -/
theorem reaper_task_agrees (s : Sched) (zs : List TaskRef) (hl : s.queues .onStack = .empty)
    (hz : Represents s.next (s.queues .zombieQ) zs) :
    ∃ s', s.reaperService = some s' ∧
      SameReaping (Sched.reaperTaskTurn^[zs.length] s) s' := by
  obtain ⟨s',hs,hclean⟩ := reaperService_cleaned hl hz
  have hround := turned_round hz
  have hkept := hround.zombies
  rw [List.nil_append] at hkept
  refine ⟨s',hs,?_,?_,funext fun u => ?_,?_,?_⟩
  · funext u
    rw [hround.swept.tasks,hclean.swept.tasks]
  · funext q
    by_cases hq : q = .zombieQ
    · rw [hq]
      exact represents_eq hkept hclean.zombies
    · rw [hround.queues q hq,hclean.queues q hq]
  · by_cases hmem : u ∈ zs
    · cases hr : s.released u with
      | true => rw [hround.cleared u hmem hr,hclean.cleared u hmem hr]
      | false =>
        have hin : u ∈ zs.filter fun t => !s.released t :=
          List.mem_filter.mpr ⟨hmem,by rw [hr]; rfl⟩
        exact linked_next hkept.linked hclean.zombies.linked u hin
    · rw [hround.links u hmem,hclean.links u hmem]
  · rw [hround.swept.frees,hclean.swept.frees]
  · rw [hround.rest,hclean.rest]

/-- Two zombies, one of which a core still has. -/
theorem reaper_task_agrees_divided :
    ∃ s', dividedSched.reaperService = some s' ∧
      SameReaping (Sched.reaperTaskTurn^[2] dividedSched) s' :=
  reaper_task_agrees dividedSched [.pool 5,.pool 6] rfl ⟨⟨rfl,rfl,rfl⟩,rfl,by decide⟩

end Arm64

import Arm64Baremetal.SchedLoops

set_option autoImplicit false

namespace Arm64
open IntrusiveQueue

def getSystemTime (freq count : BitVec 64) : BitVec 64 := count * 1000 / freq

structure InSleepQ (s : Sched) (t : TaskRef) : Prop where
  onStack : s.queues .onStack = .empty
  lists : ∃ ready sleep, Represents s.next (s.queues .readyQ) ready ∧
    Represents s.next (s.queues .sleepQ) sleep ∧ (∀ u ∈ ready, u ∉ sleep) ∧ t ∈ sleep

/-- sched_check_tasks takes the task to ready_q. -/
def FoundDue (s : Sched) (now : BitVec 64) (t : TaskRef) : Prop :=
  ∃ s' ready, s.schedCheckTasks now = some s' ∧ Represents s'.next (s'.queues .readyQ) ready ∧
    t ∈ ready

/-- Scheduler time at two values of the counter, the second not before the first. A task that
is found due stays due, and one that msleep has put to sleep at the first is due at the second
when its milliseconds have passed. -/
structure TimeRunsOn (freq c₁ c₂ : BitVec 64) : Prop where
  floor : ∀ c ∈ [c₁,c₂], (getSystemTime freq c).toNat = c.toNat * 1000 / freq.toNat
  mono : getSystemTime freq c₁ ≤ getSystemTime freq c₂
  staysDue : ∀ s t, InSleepQ s t → FoundDue s (getSystemTime freq c₁) t →
    FoundDue s (getSystemTime freq c₂) t
  wakes : ∀ (s₀ s : Sched) core t (ms : BitVec 32), s₀.current core = some t → InSleepQ s t →
    (s.tasks t).wakeTick = ((s₀.msleep core ms (getSystemTime freq c₁)).tasks t).wakeTick →
    ms.toNat * freq.toNat ≤ (c₂.toNat - c₁.toNat) * 1000 → FoundDue s (getSystemTime freq c₂) t

section Time
variable {freq c c' : BitVec 64}

theorem getSystemTime_toNat (freq c : BitVec 64) :
    (getSystemTime freq c).toNat = c.toNat * 1000 % 2 ^ 64 / freq.toNat := by
  rw [getSystemTime,BitVec.toNat_udiv,BitVec.toNat_mul]
  rfl

/-- The quotient is right when the product is, because the divisor is smaller than what the
product has lost. -/
theorem getSystemTime_floor_iff (hf : freq ≠ 0) :
    (getSystemTime freq c).toNat = c.toNat * 1000 / freq.toNat ↔ c.toNat * 1000 < 2 ^ 64 := by
  have hpos : 0 < freq.toNat :=
    Nat.pos_of_ne_zero fun h => hf (BitVec.eq_of_toNat_eq h)
  rw [getSystemTime_toNat]
  constructor
  · intro h
    by_contra hge
    have hlost : c.toNat * 1000 % 2 ^ 64 + freq.toNat ≤ c.toNat * 1000 := by
      have := freq.isLt
      omega
    have hmore := Nat.div_le_div_right (c := freq.toNat) hlost
    rw [Nat.add_div_right _ hpos] at hmore
    omega
  · intro h
    rw [Nat.mod_eq_of_lt h]

theorem InSleepQ.foundDue {s : Sched} {t : TaskRef} (h : InSleepQ s t) (now : BitVec 64) :
    FoundDue s now t ↔ s.due now t = true := by
  obtain ⟨ready,sleep,hready,hsleep,hapart,ht⟩ := h.lists
  obtain ⟨s',hs',hw⟩ := schedCheckTasks_woken h.onStack hready hsleep hapart now
  constructor
  · rintro ⟨s'',ready',hs'',hready',ht'⟩
    obtain rfl := Option.some.inj (hs'.symm.trans hs'')
    rw [hready'.unique hw.ready] at ht'
    rcases List.mem_append.mp ht' with ht' | ht'
    · exact absurd ht (hapart t ht')
    · exact (List.mem_filter.mp ht').2
  · intro hdue
    exact ⟨s',_,hs',hw.ready,List.mem_append_right _ (List.mem_filter.mpr ⟨ht,hdue⟩)⟩

theorem msleep_wakeTick {s : Sched} {core : SchedCore} {t : TaskRef} (h : s.current core = some t)
    (ms : BitVec 32) (now : BitVec 64) :
    ((s.msleep core ms now).tasks t).wakeTick = now + ms.setWidth 64 := by
  simp only [Sched.msleep,h,Sched.taskEnqueue,Sched.setTask]
  rw [Function.update_self]

theorem due_iff {s : Sched} {now : BitVec 64} {t : TaskRef} :
    s.due now t = true ↔ (s.tasks t).wakeTick.toNat ≤ now.toNat := by
  rw [Sched.due,decide_eq_true_iff]
  rfl

/-- Time is right up to a value of the counter exactly when a thousand times that value does
not overflow. -/
theorem time_runs_on_iff (freq c₁ c₂ : BitVec 64) (hf : freq ≠ 0) (hc : c₁ ≤ c₂) :
    TimeRunsOn freq c₁ c₂ ↔ c₂.toNat * 1000 < 2 ^ 64 := by
  have hc' : c₁.toNat ≤ c₂.toNat := hc
  constructor
  · exact fun h => (getSystemTime_floor_iff hf).mp (h.floor c₂ (by simp))
  · intro hlt
    have hlt₁ : c₁.toNat * 1000 < 2 ^ 64 := (Nat.mul_le_mul_right 1000 hc').trans_lt hlt
    have h₁ : (getSystemTime freq c₁).toNat = c₁.toNat * 1000 / freq.toNat :=
      (getSystemTime_floor_iff hf).mpr hlt₁
    have h₂ : (getSystemTime freq c₂).toNat = c₂.toNat * 1000 / freq.toNat :=
      (getSystemTime_floor_iff hf).mpr hlt
    have hmono : (getSystemTime freq c₁).toNat ≤ (getSystemTime freq c₂).toNat := by
      rw [h₁,h₂]
      exact Nat.div_le_div_right (Nat.mul_le_mul_right _ hc')
    refine ⟨?_,hmono,?_,?_⟩
    · intro c hmem
      rcases List.mem_cons.mp hmem with rfl | hmem
      · exact h₁
      · exact List.mem_singleton.mp hmem ▸ h₂
    · intro s t hs hdue
      rw [hs.foundDue,due_iff] at hdue ⊢
      exact hdue.trans hmono
    · intro s₀ s core t ms hcurrent hs hwake helapsed
      have hpos : 0 < freq.toNat :=
        Nat.pos_of_ne_zero fun h => hf (BitVec.eq_of_toNat_eq h)
      rw [msleep_wakeTick hcurrent] at hwake
      rw [hs.foundDue,due_iff,hwake,BitVec.toNat_add,BitVec.toNat_setWidth]
      have hsum : c₁.toNat * 1000 / freq.toNat + ms.toNat ≤ c₂.toNat * 1000 / freq.toNat := by
        rw [← Nat.add_mul_div_right _ _ hpos]
        exact Nat.div_le_div_right (by omega)
      refine (Nat.mod_le _ _).trans ?_
      rw [h₁,h₂]
      exact (Nat.add_le_add_left (Nat.mod_le _ _) _).trans hsum

/-- The frequency that EL3 sets, one second after the start. -/
theorem time_runs_on_second : TimeRunsOn 65000000 0 65000000 :=
  (time_runs_on_iff 65000000 0 65000000 (by decide) (by decide)).mpr (by decide)

/-- At the last tick whose product fits, and at the next one: the time goes back to zero, and a
task that was due is not. -/
theorem time_runs_back :
    ¬ TimeRunsOn 65000000 18446744073709551 18446744073709552 ∧
      getSystemTime 65000000 18446744073709551 = 283796062672 ∧
      getSystemTime 65000000 18446744073709552 = 0 := by
  have hback : getSystemTime 65000000 18446744073709552 = 0 := by decide
  have hlast : getSystemTime 65000000 18446744073709551 = 283796062672 := by decide
  refine ⟨fun h => ?_,hlast,hback⟩
  have hmono := h.mono
  rw [hlast,hback] at hmono
  exact absurd hmono (by decide)

end Time

end Arm64

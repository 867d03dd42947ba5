import Arm64Baremetal.El3Preemption

/-!
The two worlds of a core as they should look: each one's registers are put aside
when it leaves and come back when it is entered again. Runs in which the kernel
only calls and the secure world only yields follow this.
-/

set_option autoImplicit false

namespace Arm64
open Runs

structure Worlds where
  kernel : Option Machine
  secure : Option Machine

/-- The kernel is put aside by its SEEOS call, the secure world whenever it leaves. -/
def Worlds.next (w : Worlds) (s : System) (c : CoreId) (e : Event) : Worlds where
  kernel := if s.SeeosCall c e then some (s.core c).machine else w.kernel
  secure := if s.SavesSecure c e then some (s.core c).machine else w.secure

def worlds (img : Image) (c : CoreId) (w : Worlds) : System → List Event → Worlds
  | _, [] => w
  | s, e :: es => worlds img c (w.next s c e) (step img s e) es

/-- The kernel issues neither SMC_YIELD nor SMC_RESUME, the secure world only
SMC_YIELD, 1021 is acknowledged in the secure world and no core goes to sleep. -/
def Isolating (s : System) (e : Event) : Prop :=
  ∀ c, (s.NonSecure c → s.smc c e ≠ some smcYield ∧ s.smc c e ≠ some smcResume) ∧
    (s.Secure c → s.smc c e = none ∨ s.smc c e = some smcYield) ∧
    (e.ack c = some interruptHpiNsg1 → s.Secure c) ∧
    e.ack c ≠ some (sgiCoreSleep.setWidth 32)

instance (s : System) (e : Event) : Decidable (Isolating s e) :=
  inferInstanceAs (Decidable (∀ _, (_ → _ ∧ _) ∧ (_ → _ ∨ _) ∧ (_ → _) ∧ _))

/-- Whichever world core `c` enters in this step gets back what was put aside. -/
structure Isolated (img : Image) (s : System) (w : Worlds) (e : Event) (c : CoreId) : Prop where
  returns : s.SavesSecure c e → (step img s e).NonSecure c ∧
    ∃ k, w.kernel = some k ∧ SameCallState ((step img s e).core c).machine k
  enters : s.SeeosCall c e → (step img s e).Secure c ∧
    ∀ m, w.secure = some m → SameCallState ((step img s e).core c).machine m

/-- The saved contexts hold what was put aside, and a core in the secure world was
called. -/
structure Aside (s : System) (w : Worlds) (c : CoreId) : Prop where
  kernel : ∀ k, w.kernel = some k → (s.cpus c).nsContext.Holds k
  secure : ∀ m, w.secure = some m → (s.cpus c).sContext.Holds m
  called : s.Secure c → w.kernel ≠ none

variable {img : Image} {s : System} {w : Worlds} {e : Event} {c : CoreId}

theorem below_of_smc {f : BitVec 32} (h : s.smc c e = some f) :
    (s.core c).machine.atEl3 = false := by
  cases e with
  | run d m => contradiction
  | sync d esr far =>
    change (if _ then _ else _) = _ at h
    split at h
    · rename_i hd
      exact hd.2.1
    · contradiction
  | fiq d iar => contradiction

theorem secure_or_nonSecure (h : (s.core c).machine.atEl3 = false) :
    s.Secure c ∨ s.NonSecure c := by
  cases hn : (s.core c).ns with
  | false => exact .inl ⟨h,hn⟩
  | true => exact .inr ⟨h,hn⟩

theorem Isolating.no_resume (h : Isolating s e) : s.smc c e ≠ some smcResume := by
  intro hr
  rcases secure_or_nonSecure (below_of_smc hr) with hs | hn
  · rcases (h c).2.1 hs with h0 | hy
    · exact absurd (h0.symm.trans hr) nofun
    · exact absurd (hy.symm.trans hr) (by decide)
  · exact ((h c).1 hn).2 hr

theorem Isolating.secure_of_saves (h : Isolating s e) (hs : s.SavesSecure c e) : s.Secure c := by
  rcases hs with hy | hp
  · rcases secure_or_nonSecure (below_of_smc hy) with hs | hn
    · exact hs
    · exact absurd hy ((h c).1 hn).1
  · exact (h c).2.2.1 hp

theorem secure_step (hi : Isolating s e) (hc : ¬ s.SeeosCall c e)
    (h : (step img s e).Secure c) : s.Secure c := by
  cases step_cases img s e c with
  | yield esr far hy hs => exact hi.secure_of_saves (.inl hy)
  | resume esr far hr hs => exact absurd hr hi.no_resume
  | seeos esr far hc' hs => exact absurd hc' hc
  | preempt io hp hs => exact hi.secure_of_saves (.inr hp)
  | calm hy hr hc hp hs => exact hs.secure h

theorem aside_step (h : Aside s w c) (hi : Isolating s e) :
    Aside (step img s e) (w.next s c e) c where
  kernel k hk := by
    unfold Worlds.next at hk
    by_cases hc : s.SeeosCall c e
    · rw [if_pos hc] at hk
      obtain rfl := Option.some.inj hk
      obtain ⟨esr,far,hs⟩ := step_of_seeosCall img hc
      rw [hs]
      exact seeosCall_nsContext img s c esr far
    · rw [if_neg hc] at hk
      rw [nsContext_step hc]
      exact h.kernel k hk
  secure m hm := by
    unfold Worlds.next at hm
    by_cases hv : s.SavesSecure c e
    · rw [if_pos hv] at hm
      obtain rfl := Option.some.inj hm
      exact sContext_saves hv
    · rw [if_neg hv] at hm
      rw [sContext_keeps hv]
      exact h.secure m hm
  called hsec := by
    unfold Worlds.next
    by_cases hc : s.SeeosCall c e
    · simp [hc]
    · simpa [hc] using h.called (secure_step hi hc hsec)

theorem isolated_of_aside (h : Aside s w c) (hi : Isolating s e) : Isolated img s w e c where
  returns hv := by
    obtain ⟨k,hk⟩ := Option.ne_none_iff_exists'.mp (h.called (hi.secure_of_saves hv))
    obtain ⟨hns,hsame⟩ := returns_of_saves hv (h.kernel k hk)
    exact ⟨hns,k,hk,hsame⟩
  enters hc := by
    obtain ⟨esr,far,hs⟩ := step_of_seeosCall img hc
    rw [hs]
    refine ⟨seeosCall_secure img s c esr far,fun m hm => ?_⟩
    have hh := h.secure m hm
    rw [seeosCall_machine img esr far hh.initialized]
    exact hh.sameCallState _ _

theorem worlds_append (es es' : List Event) :
    worlds img c w s (es ++ es') =
      worlds img c (worlds img c w s es) (exec (step img) s es) es' := by
  induction es generalizing s w with
  | nil => rfl
  | cons e es ih => exact ih

theorem aside_run {es : List Event} (hs : ¬ s.Secure c) (h : Along (step img) Isolating s es) :
    Aside (exec (step img) s es) (worlds img c ⟨none,none⟩ s es) c := by
  refine exec_history (I := fun pre t => Aside t (worlds img c ⟨none,none⟩ s pre) c) ?_ ?_ h
  · exact ⟨nofun,nofun,fun h => absurd h hs⟩
  · intro pre e ha hi
    rw [worlds_append]
    exact aside_step ha hi

/-- In every isolating run that starts outside the secure world, on any cores in any
order, each world of each core gets back the registers it left with. -/
theorem worlds_isolated (img : Image) (s₀ : System) (hs : ∀ c, ¬ s₀.Secure c)
    (es : List Event) (h : Along (step img) Isolating s₀ es) :
    ∀ pre e post, es = pre ++ e :: post → ∀ c,
      Isolated img (exec (step img) s₀ pre) (worlds img c ⟨none,none⟩ s₀ pre) e c := by
  rintro pre e post rfl c
  rw [along_append] at h
  exact isolated_of_aside (aside_run (hs c) h.1) h.2.1

/-- Two calls from core 0: the first one yields, the second one is preempted. -/
theorem worlds_isolated_two_calls :
    let s₀ := System.boot testImage 0x40300000 .zero
    let es : List Event :=
      [.run 0 (.calling 0x10000010 0x40300104),.sync 0 smcEsr 0,
       .run 0 (.calling smcYield 0x40041004),.sync 0 smcEsr 0,
       .run 0 (.calling 0x10000030 0x40300204),.sync 0 smcEsr 0,.fiq 0 1021]
    (∀ c, ¬ s₀.Secure c) ∧ Along (step testImage) Isolating s₀ es ∧
      ∀ pre e post, es = pre ++ e :: post → ∀ c,
        Isolated testImage (exec (step testImage) s₀ pre)
          (worlds testImage c ⟨none,none⟩ s₀ pre) e c := by
  intro s₀ es
  have hs : ∀ c, ¬ s₀.Secure c := by decide
  have hi : Along (step testImage) Isolating s₀ es := by decide
  exact ⟨hs,hi,worlds_isolated testImage s₀ hs es hi⟩

end Arm64

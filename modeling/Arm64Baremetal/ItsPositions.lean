import Arm64Baremetal.KernelIts

/-!
gic_its_prepare, gic_its_enable and gic_its_disable beside the commands of kernel_its.c: where
the driver and the ITS are in the queue, and how often the ITS executes a slot.
-/

set_option autoImplicit false

namespace Arm64.Its
open Runs

def gitsCtlrEnabled : BitVec 32 := 1 <<< 0
def gitsCtlrQuiescent : BitVec 32 := 1 <<< 31

/-- The physical address of command_queue. -/
structure QueuePlace where
  pa : Word
  aligned : pa.toNat % 65536 = 0

inductive CtlStmt where
  | cbaser
  | cwriter
  | returnIf (enabled : Bool)
  | awaitQuiescent
  | readCtlr
  | writeCtlr (enable : Bool)
  deriving DecidableEq

def gicItsPrepareCode : List CtlStmt := [.cbaser,.cwriter]

def gicItsEnable : List CtlStmt :=
  [.returnIf true,.awaitQuiescent,.readCtlr,.writeCtlr true]

def gicItsDisable : List CtlStmt :=
  [.returnIf false,.awaitQuiescent,.readCtlr,.writeCtlr false]

/-- The ring, the call of one of these three functions with its variable ctlr, and GITS_CTLR.
`written` and `executed` count the commands that were written into a slot and the times that
the ITS has executed it. -/
structure Driven where
  ring : Ring
  code : List CtlStmt
  ctlr : BitVec 32
  ctlrRead : BitVec 32
  written : Nat → Nat
  executed : Nat → Nat

namespace Driven

def enabled (s : Driven) : Bool := s.ctlr &&& gitsCtlrEnabled ≠ 0

def count (f : Nat → Nat) (k : Nat) : Nat → Nat := Function.update f k (f k + 1)

def Between (s : Driven) : Prop := s.ring.code = [] ∧ s.code = []

instance (s : Driven) : Decidable s.Between :=
  decidable_of_iff (s.ring.code.isEmpty = true ∧ s.code.isEmpty = true) (by simp [Between])

/-- A statement outside the commands. GITS_CTLR.Quiescent is read-only. -/
def control (q : QueuePlace) (s : Driven) : Driven :=
  match s.code with
  | [] => s
  | .cbaser :: code =>
      { s with
        ring := { s.ring with cbaser := q.pa ||| gitsCbaserFlags, creadr := 0 }
        code := code }
  | .cwriter :: code => { s with ring := { s.ring with cwriter := 0 }, code := code }
  | .returnIf enabled :: code => { s with code := if s.enabled = enabled then [] else code }
  | .awaitQuiescent :: code =>
      if s.ctlr &&& gitsCtlrQuiescent = 0 then s else { s with code := code }
  | .readCtlr :: code => { s with ctlrRead := s.ctlr, code := code }
  | .writeCtlr enable :: code =>
      let v := if enable then s.ctlrRead ||| gitsCtlrEnabled else s.ctlrRead &&& ~~~gitsCtlrEnabled
      { s with
        ctlr := v &&& ~~~gitsCtlrQuiescent ||| s.ctlr &&& gitsCtlrQuiescent
        code := code }

/-- The next statement of the call. A command is in its slot when cmd_offset moves on. -/
def driver (q : QueuePlace) (s : Driven) : Driven :=
  match s.ring.code with
  | [] => s.control q
  | .advance :: _ =>
      { s with
        ring := driverStep s.ring
        written := count s.written (s.ring.cmdOffset.toNat / 32) }
  | _ :: _ => { s with ring := driverStep s.ring }

/-- An enabled ITS executes the next slot. -/
def its (s : Driven) : Driven :=
  if s.enabled ∧ s.ring.creadr ≠ s.ring.cwriter then
    { s with
      ring := itsStep s.ring
      executed := count s.executed (s.ring.creadr.toNat / 32) }
  else s

def quiescent (b : Bool) (s : Driven) : Driven :=
  { s with
    ctlr := if b then s.ctlr ||| gitsCtlrQuiescent else s.ctlr &&& ~~~gitsCtlrQuiescent }

end Driven

inductive DrivenEvent where
  | call (c : Call)
  | prepare
  | enable
  | disable
  | driver
  | its
  | quiescent (b : Bool)

/-- A call begins when the one before it has returned. -/
def drivenStep (q : QueuePlace) (s : Driven) : DrivenEvent → Driven
  | .call c => if s.Between then { s with ring := step s.ring (.call c) } else s
  | .prepare => if s.Between then { s with code := gicItsPrepareCode } else s
  | .enable => if s.Between then { s with code := gicItsEnable } else s
  | .disable => if s.Between then { s with code := gicItsDisable } else s
  | .driver => s.driver q
  | .its => s.its
  | .quiescent b => s.quiescent b

/-- gic_its_prepare is called only while cmd_offset is zero. -/
def PreparesAtStart (s : Driven) : DrivenEvent → Prop
  | .prepare => s.Between → s.ring.cmdOffset = 0
  | _ => True

instance (s : Driven) : (e : DrivenEvent) → Decidable (PreparesAtStart s e)
  | .prepare => inferInstanceAs (Decidable (s.Between → _))
  | .call _ | .enable | .disable | .driver | .its | .quiescent _ => inferInstanceAs (Decidable True)

/-- After reset the ITS is disabled; its other registers may hold anything. -/
structure ItsReset (s : Driven) : Prop where
  between : s.Between
  offset : s.ring.cmdOffset = 0
  disabled : s.enabled = false
  written : ∀ k, s.written k = 0
  executed : ∀ k, s.executed k = 0

/-- The driver and the ITS are at the same place between two calls, and no slot has been
executed more often than a command was written into it. -/
structure InStep (s : Driven) : Prop where
  positions : s.Between → s.ring.cwriter = s.ring.cmdOffset.setWidth 64
  once : ∀ k, s.executed k ≤ s.written k

/-- Every command that was written has been executed, but for `n` in the slot at `off`. -/
def Owed (s : Driven) (off n : Nat) : Prop :=
  ∀ k, s.written k = s.executed k + if k = off / 32 then n else 0

/-- The statements of the calls one by one, with the registers and what the ITS still owes. -/
inductive Positions (s : Driven) : Prop
  | preparing (hring : s.ring.code = []) (hcode : s.code = gicItsPrepareCode)
      (hoff : s.ring.cmdOffset = 0)
      (hq : s.enabled = true → s.ring.creadr = 0 ∧ s.ring.cwriter = 0) (hn : Owed s 0 0)
  | prepared (hring : s.ring.code = []) (hcode : s.code = [.cwriter])
      (hsize : queueBytes s.ring.cbaser = 4096) (hoff : s.ring.cmdOffset = 0)
      (hread : s.ring.creadr = 0) (hq : s.enabled = true → s.ring.cwriter = 0) (hn : Owed s 0 0)
  | idle (off : Nat) (ho : Slot off) (ha : At s.ring off off off) (hring : s.ring.code = [])
      (hcode : ∀ stmt ∈ s.code, stmt ∉ gicItsPrepareCode) (hn : Owed s off 0)
  | writing (off : Nat) (ho : Slot off) (ha : At s.ring off off off) (l : List Store)
      (hring : s.ring.code = l.map .store ++ [.advance,.publish,.wait]) (hcode : s.code = [])
      (hn : Owed s off 0)
  | advanced (off : Nat) (ho : Slot off) (ha : At s.ring (nextSlot off) off off)
      (hring : s.ring.code = [.publish,.wait]) (hcode : s.code = []) (hn : Owed s off 1)
  | published (off : Nat) (ho : Slot off) (ha : At s.ring (nextSlot off) off (nextSlot off))
      (hring : s.ring.code = [.wait]) (hcode : s.code = []) (hn : Owed s off 1)
  | drained (off : Nat) (ho : Slot off) (ha : At s.ring off off off)
      (hring : s.ring.code = [.wait]) (hcode : s.code = []) (hn : Owed s off 0)

section Counts
variable {s : Driven} {off : Nat}

theorem Owed.le {n : Nat} (h : Owed s off n) (k : Nat) : s.executed k ≤ s.written k := by
  rw [h k]
  exact Nat.le_add_right _ _

theorem count_apply (f : Nat → Nat) (k j : Nat) :
    Driven.count f k j = f j + if j = k then 1 else 0 := by
  unfold Driven.count
  by_cases hj : j = k
  · rw [hj,Function.update_self,if_pos rfl]
  · rw [Function.update_of_ne hj,if_neg hj,Nat.add_zero]

end Counts

section Enabled

theorem enabled_quiescent (s : Driven) (b : Bool) : (s.quiescent b).enabled = s.enabled := by
  have hset : gitsCtlrQuiescent &&& gitsCtlrEnabled = 0#32 := by decide
  have hclear : ~~~gitsCtlrQuiescent &&& gitsCtlrEnabled = gitsCtlrEnabled := by decide
  unfold Driven.quiescent Driven.enabled
  cases b
  · simp only [Bool.false_eq_true,if_false,BitVec.and_assoc,hclear]
  · simp only [if_true,BitVec.and_or_distrib_right,hset,BitVec.or_zero]

theorem its_still {s : Driven} (h : s.enabled = true → s.ring.creadr = s.ring.cwriter) :
    s.its = s := by
  rw [Driven.its,if_neg fun hne => hne.2 (h hne.1)]

end Enabled

theorem Positions.its {s : Driven} (h : Positions s) : Positions s.its := by
  cases h with
  | preparing hring hcode hoff hq hn =>
    rw [its_still fun he => (hq he).1.trans (hq he).2.symm]
    exact .preparing hring hcode hoff hq hn
  | prepared hring hcode hsize hoff hread hq hn =>
    rw [its_still fun he => hread.trans (hq he).symm]
    exact .prepared hring hcode hsize hoff hread hq hn
  | idle off ho ha hring hcode hn =>
    rw [its_still fun _ => ha.creadr.trans ha.cwriter.symm]
    exact .idle off ho ha hring hcode hn
  | writing off ho ha l hring hcode hn =>
    rw [its_still fun _ => ha.creadr.trans ha.cwriter.symm]
    exact .writing off ho ha l hring hcode hn
  | advanced off ho ha hring hcode hn =>
    rw [its_still fun _ => ha.creadr.trans ha.cwriter.symm]
    exact .advanced off ho ha hring hcode hn
  | published off ho ha hring hcode hn =>
    by_cases he : s.enabled = true ∧ s.ring.creadr ≠ s.ring.cwriter
    · -- the command that is owed is the one that the ITS comes to
      have hoff : s.ring.creadr.toNat = off := by
        have := ho.inside
        rw [ha.creadr,BitVec.toNat_ofNat]
        omega
      rw [Driven.its,if_pos he,itsStep_slot ho ha,hoff]
      refine .drained (nextSlot off) ho.next ⟨ha.size,ha.cmdOffset,rfl,ha.cwriter⟩ hring hcode ?_
      intro k
      dsimp only
      rw [hn k,count_apply,ite_self,Nat.add_zero]
    · rw [Driven.its,if_neg he]
      exact .published off ho ha hring hcode hn
  | drained off ho ha hring hcode hn =>
    rw [its_still fun _ => ha.creadr.trans ha.cwriter.symm]
    exact .drained off ho ha hring hcode hn

theorem gicItsEnable_apart : ∀ stmt ∈ gicItsEnable, stmt ∉ gicItsPrepareCode := by decide

theorem gicItsDisable_apart : ∀ stmt ∈ gicItsDisable, stmt ∉ gicItsPrepareCode := by decide

theorem control_idle {q : QueuePlace} {s : Driven}
    (hcode : ∀ stmt ∈ s.code, stmt ∉ gicItsPrepareCode) :
    (s.control q).ring = s.ring ∧ (s.control q).written = s.written ∧
      (s.control q).executed = s.executed ∧
      ∀ stmt ∈ (s.control q).code, stmt ∉ gicItsPrepareCode := by
  unfold Driven.control
  cases hs : s.code with
  | nil => exact ⟨rfl,rfl,rfl,fun stmt hmem => hcode stmt hmem⟩
  | cons stmt code =>
    rw [hs] at hcode
    have hrest : ∀ st ∈ code, st ∉ gicItsPrepareCode := fun st hst =>
      hcode st (List.mem_cons_of_mem stmt hst)
    cases stmt with
    | cbaser => exact absurd List.mem_cons_self (hcode _ List.mem_cons_self)
    | cwriter => exact absurd (by decide) (hcode _ List.mem_cons_self)
    | returnIf enabled =>
      refine ⟨rfl,rfl,rfl,fun st hst => ?_⟩
      dsimp only at hst
      split at hst
      · cases hst
      · exact hrest st hst
    | awaitQuiescent =>
      dsimp only
      split
      · exact ⟨rfl,rfl,rfl,by rw [hs]; exact hcode⟩
      · exact ⟨rfl,rfl,rfl,hrest⟩
    | readCtlr => exact ⟨rfl,rfl,rfl,hrest⟩
    | writeCtlr enable => exact ⟨rfl,rfl,rfl,hrest⟩

theorem driver_control {q : QueuePlace} {s : Driven} (h : s.ring.code = []) :
    s.driver q = s.control q := by
  rw [Driven.driver,h]

theorem Positions.driver {s : Driven} (h : Positions s) (q : QueuePlace) :
    Positions (s.driver q) := by
  cases h with
  | preparing hring hcode hoff hq hn =>
    rw [driver_control hring,Driven.control,hcode]
    exact .prepared hring rfl (queueBytes_gicItsPrepare q.aligned) hoff rfl (fun he => (hq he).2) hn
  | prepared hring hcode hsize hoff hread hq hn =>
    rw [driver_control hring,Driven.control,hcode]
    exact .idle 0 ⟨rfl,by decide⟩ ⟨hsize,hoff,hread,rfl⟩ hring
      (fun _ h => absurd h List.not_mem_nil) hn
  | idle off ho ha hring hcode hn =>
    obtain ⟨hsame,hwritten,hexecuted,hcode'⟩ := @control_idle q s hcode
    rw [driver_control hring]
    refine .idle off ho (hsame ▸ ha) (by rw [hsame,hring]) hcode' fun k => ?_
    rw [hwritten,hexecuted]
    exact hn k
  | writing off ho ha l hring hcode hn =>
    cases l with
    | nil =>
      have hoff : s.ring.cmdOffset.toNat = off := by
        have := ho.inside
        rw [ha.cmdOffset,BitVec.toNat_ofNat]
        omega
      simp only [Driven.driver,driverStep,hring,List.map_nil,List.nil_append]
      refine .advanced off ho ⟨ha.size,?_,ha.creadr,ha.cwriter⟩ rfl hcode fun k => ?_
      · simp only [ha.cmdOffset]
        exact advance_ofNat ho
      · dsimp only
        rw [count_apply,hoff,hn k,ite_self,Nat.add_zero]
    | cons p l =>
      simp only [Driven.driver,driverStep,hring,List.map_cons,List.cons_append]
      exact .writing off ho ⟨ha.size,ha.cmdOffset,ha.creadr,ha.cwriter⟩ l rfl hcode hn
  | advanced off ho ha hring hcode hn =>
    simp only [Driven.driver,driverStep,hring]
    refine .published off ho ⟨ha.size,ha.cmdOffset,ha.creadr,?_⟩ rfl hcode hn
    simp only [ha.cmdOffset]
    exact setWidth_ofNat ho.next.inside
  | published off ho ha hring hcode hn =>
    have hne : s.ring.creadr ≠ s.ring.cmdOffset.setWidth 64 := by
      rw [ha.creadr,ha.cmdOffset,setWidth_ofNat ho.next.inside]
      exact fun heq => ho.next_ne (ofNat_inj ho.inside ho.next.inside heq)
    simp only [Driven.driver,driverStep,hring,if_neg hne]
    exact .published off ho ha hring hcode hn
  | drained off ho ha hring hcode hn =>
    have heq : s.ring.creadr = s.ring.cmdOffset.setWidth 64 := by
      rw [ha.creadr,ha.cmdOffset,setWidth_ofNat ho.inside]
    simp only [Driven.driver,driverStep,hring,if_pos heq]
    exact .idle off ho ⟨ha.size,ha.cmdOffset,ha.creadr,ha.cwriter⟩ rfl (by rw [hcode]; simp) hn

theorem Positions.quiescent {s : Driven} (h : Positions s) (b : Bool) :
    Positions (s.quiescent b) := by
  have he := enabled_quiescent s b
  cases h with
  | preparing hring hcode hoff hq hn =>
    exact .preparing hring hcode hoff (fun h => hq (he.symm.trans h)) hn
  | prepared hring hcode hsize hoff hread hq hn =>
    exact .prepared hring hcode hsize hoff hread (fun h => hq (he.symm.trans h)) hn
  | idle off ho ha hring hcode hn => exact .idle off ho ha hring hcode hn
  | writing off ho ha l hring hcode hn => exact .writing off ho ha l hring hcode hn
  | advanced off ho ha hring hcode hn => exact .advanced off ho ha hring hcode hn
  | published off ho ha hring hcode hn => exact .published off ho ha hring hcode hn
  | drained off ho ha hring hcode hn => exact .drained off ho ha hring hcode hn

/-- Between two calls the ITS has come to cmd_offset, and owes nothing. -/
theorem Positions.between {s : Driven} (h : Positions s) (hb : s.Between) :
    ∃ off, Slot off ∧ At s.ring off off off ∧ Owed s off 0 := by
  obtain ⟨hring',hcode'⟩ := hb
  cases h with
  | preparing hring hcode => simp [hcode',gicItsPrepareCode] at hcode
  | prepared hring hcode => simp [hcode'] at hcode
  | idle off ho ha hring hcode hn => exact ⟨off,ho,ha,hn⟩
  | writing off ho ha l hring => simp [hring'] at hring
  | advanced off ho ha hring => simp [hring'] at hring
  | published off ho ha hring => simp [hring'] at hring
  | drained off ho ha hring => simp [hring'] at hring

theorem offset_zero {s : Driven} {off r w : Nat} (ho : Slot off) (ha : At s.ring off r w)
    (h : s.ring.cmdOffset = 0) : off = 0 := by
  have := ho.inside
  have heq := congrArg BitVec.toNat (ha.cmdOffset.symm.trans h)
  rw [BitVec.toNat_ofNat] at heq
  exact (Nat.mod_eq_of_lt (by omega)).symm.trans heq

theorem Positions.step {s : Driven} (h : Positions s) {q : QueuePlace} {e : DrivenEvent}
    (he : PreparesAtStart s e) : Positions (drivenStep q s e) := by
  cases e with
  | driver => exact h.driver q
  | its => exact h.its
  | quiescent b => exact h.quiescent b
  | call c =>
    by_cases hb : s.Between
    · obtain ⟨off,ho,ha,hn⟩ := h.between hb
      simp only [drivenStep,if_pos hb,Its.step,hb.1]
      exact .writing off ho ⟨ha.size,ha.cmdOffset,ha.creadr,ha.cwriter⟩ _ rfl hb.2 hn
    · rw [drivenStep,if_neg hb]
      exact h
  | prepare =>
    by_cases hb : s.Between
    · obtain ⟨off,ho,ha,hn⟩ := h.between hb
      obtain rfl := offset_zero ho ha (he hb)
      rw [drivenStep,if_pos hb]
      exact .preparing hb.1 rfl (he hb) (fun _ => ⟨ha.creadr,ha.cwriter⟩) hn
    · rw [drivenStep,if_neg hb]
      exact h
  | enable =>
    by_cases hb : s.Between
    · obtain ⟨off,ho,ha,hn⟩ := h.between hb
      rw [drivenStep,if_pos hb]
      exact .idle off ho ha hb.1 gicItsEnable_apart hn
    · rw [drivenStep,if_neg hb]
      exact h
  | disable =>
    by_cases hb : s.Between
    · obtain ⟨off,ho,ha,hn⟩ := h.between hb
      rw [drivenStep,if_pos hb]
      exact .idle off ho ha hb.1 gicItsDisable_apart hn
    · rw [drivenStep,if_neg hb]
      exact h

theorem Positions.inStep {s : Driven} (h : Positions s) : InStep s := by
  constructor
  · intro hb
    obtain ⟨off,ho,ha,_⟩ := h.between hb
    rw [ha.cwriter,ha.cmdOffset,setWidth_ofNat ho.inside]
  · cases h with
    | preparing _ _ _ _ hn | prepared _ _ _ _ _ _ hn => exact hn.le
    | idle off _ _ _ _ hn | writing off _ _ _ _ _ hn | advanced off _ _ _ _ hn => exact hn.le
    | published off _ _ _ _ hn | drained off _ _ _ _ hn => exact hn.le

theorem ItsReset.positions {s : Driven} (h : ItsReset s) (q : QueuePlace) :
    Positions (drivenStep q s .prepare) := by
  rw [drivenStep,if_pos h.between]
  refine .preparing h.between.1 rfl h.offset (fun he => ?_) fun k => ?_
  · exact absurd (h.disabled.symm.trans he) (by decide)
  · exact (h.written k).trans (by rw [h.executed k]; simp)

theorem prepare_run {s : Driven} (hb : s.Between) (q : QueuePlace) :
    exec (drivenStep q) s [.prepare,.driver,.driver] =
      { s with ring := gicItsPrepare q.pa s.ring } := by
  have hprepare : drivenStep q s .prepare = { s with code := gicItsPrepareCode } := if_pos hb
  obtain ⟨hring,hcode⟩ := hb
  have hfirst : Driven.driver q { s with code := gicItsPrepareCode } = { s with
      ring := { s.ring with cbaser := q.pa ||| gitsCbaserFlags, creadr := 0 }
      code := [.cwriter] } := driver_control hring
  have hsecond : Driven.driver q { s with
      ring := { s.ring with cbaser := q.pa ||| gitsCbaserFlags, creadr := 0 }
      code := [.cwriter] } = { s with ring := gicItsPrepare q.pa s.ring, code := [] } :=
    driver_control hring
  rw [exec_cons,hprepare,exec_cons,drivenStep,hfirst,exec_cons,drivenStep,hsecond,exec_nil,← hcode]

/-- In every run in which gic_its_prepare is called only at cmd_offset zero, the driver and the
ITS stay in step; at any other cmd_offset, the call leaves GITS_CWRITER behind. -/
theorem positions_agree (q : QueuePlace) {s : Driven} (h : ItsReset s) {evs : List DrivenEvent}
    (hevs : Along (drivenStep q) PreparesAtStart s (.prepare :: evs)) :
    let t := exec (drivenStep q) s (.prepare :: evs)
    InStep t ∧ (t.Between →
      (InStep (exec (drivenStep q) t [.prepare,.driver,.driver]) ↔ t.ring.cmdOffset = 0)) := by
  intro t
  have ht : Positions t := @exec_invariant _ _ (drivenStep q) PreparesAtStart Positions
    (fun _ _ hs he => hs.step he) _ evs (h.positions q) hevs.2
  refine ⟨ht.inStep,fun hb => ?_⟩
  rw [prepare_run hb q]
  constructor
  · intro hagain
    have hzero : (0 : Word) = t.ring.cmdOffset.setWidth 64 := hagain.positions hb
    have hnat : 0 = t.ring.cmdOffset.toNat % 2 ^ 64 :=
      (congrArg BitVec.toNat hzero).trans (BitVec.toNat_setWidth 64 _)
    have := t.ring.cmdOffset.isLt
    exact BitVec.eq_of_toNat_eq (show t.ring.cmdOffset.toNat = 0 by omega)
  · intro hzero
    refine ⟨fun _ => ?_,ht.inStep.once⟩
    have hoff : (gicItsPrepare q.pa t.ring).cmdOffset = 0 := hzero
    rw [hoff]
    rfl

def testQueue : QueuePlace := ⟨0x40080000,by decide⟩

/-- A queue with old words, and an ITS that could be enabled. -/
def resetIts : Driven := ⟨stale,[],gitsCtlrQuiescent,0,fun _ => 0,fun _ => 0⟩

def firstCommand : List DrivenEvent :=
  [.prepare,.driver,.driver,.enable,.driver,.driver,.driver,.driver,.call (.sync 0)] ++
    List.replicate 8 .driver ++ [.its,.driver]

theorem positions_agree_first :
    InStep (exec (drivenStep testQueue) resetIts firstCommand) :=
  (@positions_agree testQueue resetIts ⟨by decide,rfl,by decide,fun _ => rfl,fun _ => rfl⟩ _
    (by decide +kernel)).1

/-- The queue is prepared again after a command, and a second command follows: the ITS executes
the first slot once more. -/
def preparedAgain : List DrivenEvent :=
  firstCommand ++ [.prepare,.driver,.driver]

theorem positions_diverge :
    ¬ InStep (exec (drivenStep testQueue) resetIts preparedAgain) ∧
      (exec (drivenStep testQueue) resetIts
        (preparedAgain ++ .call (.sync 0) :: List.replicate 8 .driver ++ [.its])).executed 0 =
          2 := by
  refine ⟨fun h => absurd (h.positions (by decide +kernel)) (by decide +kernel),by decide +kernel⟩

end Arm64.Its

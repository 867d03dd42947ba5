import Arm64Baremetal.GicConfig
import Arm64Baremetal.Interleaving

/-!
The boot of the interrupt controller, with the cores interleaved at single accesses:
gic_init_core of el3_gic.c on each core, and what the kernel configures afterwards. The group
words of the distributor are read and written back without a lock.
-/

set_option autoImplicit false

namespace Arm64.GicConfig
open Runs Interleaving

/-- An access to the distributor, or to the redistributor of the core. The two with a group write
back the word that was read last, with one bit changed. -/
inductive Access where
  | gicdRead (offset : BitVec 32)
  | gicdGroup (offset bit group : BitVec 32)
  | gicdWrite (offset val : BitVec 32)
  | gicdWrite8 (offset : BitVec 32) (val : BitVec 8)
  | gicdWrite64 (offset : BitVec 32) (val : BitVec 64)
  | gicrRead (offset : BitVec 32)
  | gicrGroup (offset bit group : BitVec 32)
  | gicrWrite (offset val : BitVec 32)
  | gicrWrite8 (offset : BitVec 32) (val : BitVec 8)
  | gicrDisable (val : BitVec 32)
  deriving DecidableEq

/-- What a core has to itself: its redistributor, and `igroup`. -/
structure Own where
  gicr : Gicr
  igroup : BitVec 32

def Gicr.disable (val : BitVec 32) (r : Gicr) : Gicr :=
  { r with enabled0 := r.enabled0 &&& ~~~val }

def access : Access → Gicd × Own → Gicd × Own
  | .gicdRead offset,(d,l) => (d,{ l with igroup := d.read offset })
  | .gicdGroup offset bit group,(d,l) =>
      let igroup := setGroup l.igroup bit group
      (d.write offset igroup,{ l with igroup := igroup })
  | .gicdWrite offset val,(d,l) => (d.write offset val,l)
  | .gicdWrite8 offset val,(d,l) => (d.write8 offset val,l)
  | .gicdWrite64 offset val,(d,l) => (d.write64 offset val,l)
  | .gicrRead offset,(d,l) => (d,{ l with igroup := l.gicr.read offset })
  | .gicrGroup offset bit group,(d,l) =>
      let igroup := setGroup l.igroup bit group
      (d,⟨l.gicr.write offset igroup,igroup⟩)
  | .gicrWrite offset val,(d,l) => (d,{ l with gicr := l.gicr.write offset val })
  | .gicrWrite8 offset val,(d,l) => (d,{ l with gicr := l.gicr.write8 offset val })
  | .gicrDisable val,(d,l) => (d,{ l with gicr := l.gicr.disable val })

def gicConfSgi (intId : BitVec 32) (priority : BitVec 8) (group : BitVec 32) (r : Gicr) : Gicr :=
  confRedist intId priority group r

def gicConfPpi (intId : BitVec 32) (priority : BitVec 8) (group : BitVec 32) (r : Gicr) : Gicr :=
  confRedist intId priority group r

def gicDisableSgi (intId : BitVec 32) (r : Gicr) : Gicr :=
  if 15 < intId then r else r.disable (oneBit intId)

def gicDisablePpi (intId : BitVec 32) (r : Gicr) : Gicr :=
  if intId < 16 ∨ 31 < intId then r else r.disable (oneBit intId)

/-- A call on a core, for the redistributor of that core. -/
inductive GicCall where
  | el3ConfSpi (intId : BitVec 32) (priority : BitVec 8) (group : BitVec 32)
  | el3ConfSgi (intId : BitVec 32) (priority : BitVec 8) (group : BitVec 32)
  | el3ConfPpi (intId : BitVec 32) (priority : BitVec 8) (group : BitVec 32)
  | confSpi (intId : BitVec 32) (priority : BitVec 8) (group : BitVec 32)
  | confSgi (intId : BitVec 32) (priority : BitVec 8) (group : BitVec 32)
  | confPpi (intId : BitVec 32) (priority : BitVec 8) (group : BitVec 32)
  | routeSpi (intId : BitVec 32) (affinity : BitVec 64)
  | enableSpi (intId : BitVec 32)
  | disableSgi (intId : BitVec 32)
  | disablePpi (intId : BitVec 32)

namespace GicCall

def onGicd : GicCall → Gicd → Gicd
  | .el3ConfSpi intId priority group => gicEl3ConfSpi intId priority group
  | .confSpi intId priority group => gicConfSpi intId priority group
  | .routeSpi intId affinity => gicRouteSpi intId affinity
  | .enableSpi intId => gicEnableSpi intId
  | .el3ConfSgi _ _ _ | .el3ConfPpi _ _ _ | .confSgi _ _ _ | .confPpi _ _ _ | .disableSgi _
  | .disablePpi _ => id

def onGicr : GicCall → Gicr → Gicr
  | .el3ConfSgi intId priority group => gicEl3ConfSgi intId priority group
  | .el3ConfPpi intId priority group => gicEl3ConfPpi intId priority group
  | .confSgi intId priority group => gicConfSgi intId priority group
  | .confPpi intId priority group => gicConfPpi intId priority group
  | .disableSgi intId => gicDisableSgi intId
  | .disablePpi intId => gicDisablePpi intId
  | .el3ConfSpi _ _ _ | .confSpi _ _ _ | .routeSpi _ _ | .enableSpi _ => id

end GicCall

def groupAccesses (intId group : BitVec 32) : List Access :=
  [.gicdRead (gicdIgroupr (interruptIndex intId)),
    .gicdGroup (gicdIgroupr (interruptIndex intId)) (interruptBitPosition intId) group]

def enableAccess (intId : BitVec 32) : Access :=
  .gicdWrite (gicdIsenabler (interruptIndex intId)) (oneBit (interruptBitPosition intId))

def redistAccesses (intId : BitVec 32) (priority : BitVec 8) (group : BitVec 32) : List Access :=
  [.gicrRead gicrIgroupr0,.gicrGroup gicrIgroupr0 intId group,
    .gicrWrite gicrIsenabler0 (oneBit intId),.gicrWrite8 (gicrIpriorityr intId) priority]

def GicCall.accesses : GicCall → List Access
  | .el3ConfSpi intId priority group =>
      groupAccesses intId group ++ [.gicdWrite8 (gicdIpriorityr intId) priority]
  | .confSpi intId priority group =>
      groupAccesses intId group ++
        [enableAccess intId,.gicdWrite8 (gicdIpriorityr intId) priority]
  | .el3ConfSgi intId priority group =>
      if 15 < intId then [] else redistAccesses intId priority group
  | .el3ConfPpi intId priority group =>
      if intId < 16 ∨ 31 < intId then [] else redistAccesses intId priority group
  | .confSgi intId priority group | .confPpi intId priority group =>
      redistAccesses intId priority group
  | .routeSpi intId affinity =>
      if intId < 32 then [] else [.gicdWrite64 (gicdIrouter intId) affinity]
  | .enableSpi intId => if intId < 32 then [] else [enableAccess intId]
  | .disableSgi intId => if 15 < intId then [] else [.gicrDisable (oneBit intId)]
  | .disablePpi intId => if intId < 16 ∨ 31 < intId then [] else [.gicrDisable (oneBit intId)]

/-- Undisturbed, the accesses of a call do what the call does. -/
theorem accesses_exec (c : GicCall) (d : Gicd) (l : Own) :
    (exec (fun x a => access a x) (d,l) c.accesses).1 = c.onGicd d ∧
      (exec (fun x a => access a x) (d,l) c.accesses).2.gicr = c.onGicr l.gicr := by
  cases c with
  | el3ConfSpi | confSpi | confSgi | confPpi => exact ⟨rfl,rfl⟩
  | el3ConfSgi intId | disableSgi intId =>
    simp only [GicCall.accesses,GicCall.onGicr,gicEl3ConfSgi,gicDisableSgi]
    split <;> exact ⟨rfl,rfl⟩
  | el3ConfPpi intId | disablePpi intId =>
    simp only [GicCall.accesses,GicCall.onGicr,gicEl3ConfPpi,gicDisablePpi]
    split <;> exact ⟨rfl,rfl⟩
  | routeSpi intId | enableSpi intId =>
    simp only [GicCall.accesses,GicCall.onGicd,gicRouteSpi,gicEnableSpi]
    split <;> exact ⟨rfl,rfl⟩

def gicInitGlobal : List GicCall :=
  (List.range 97).map fun i => .el3ConfSpi (BitVec.ofNat 32 (32 + i)) 0xA0 1

def gicInitCore : List GicCall :=
  [.el3ConfSgi 0 0x10 0,.el3ConfSgi 1 0x20 0,.el3ConfPpi 30 0x0 1] ++
    (List.range 8).map fun i => .el3ConfSgi (BitVec.ofNat 32 (8 + i)) 0xF0 1

inductive KernelPart where
  | gicEl1InitSpi
  | registerDriver (irq : BitVec 32)
  | schedEnable
  | schedDisable

def KernelPart.calls : KernelPart → List GicCall
  | .gicEl1InitSpi =>
      [.confSpi 100 0x40 1,.confSpi 101 0x50 1,.confSpi 102 0x60 1,
        .routeSpi 100 0,.routeSpi 101 1,.routeSpi 102 1]
  | .registerDriver irq => [.confSpi irq 0x80 1,.routeSpi irq 0,.enableSpi irq]
  | .schedEnable => [.confSgi 8 0x20 1,.confSgi 9 0x10 1,.confPpi 30 0x0 1]
  | .schedDisable => [.disableSgi 8,.disableSgi 9,.disablePpi 30]

/-- The drivers have interrupts among those that EL3 gives to the kernel. -/
def KernelPart.Valid : KernelPart → Prop
  | .registerDriver irq => 32 ≤ irq.toNat ∧ irq.toNat ≤ 128
  | .gicEl1InitSpi | .schedEnable | .schedDisable => True

/-- The end of gic_init_global on core 0. Each core has made `made` accesses of gic_init_core, and
has the rest of it and its part of the kernel still to do. -/
def bootThreads (d : Gicd) (own : Nat → Own) (made : Nat → Nat) (kernel : Nat → List KernelPart) :
    Threads Nat Access Gicd Own :=
  let d := exec (fun d c => c.onGicd d) d gicInitGlobal
  let init := gicInitCore.flatMap GicCall.accesses
  { shared := d
    own := fun c => (exec (fun x a => access a x) (d,own c) (init.take (made c))).2
    todo := fun c => init.drop (made c) ++
      ((kernel c).flatMap KernelPart.calls).flatMap GicCall.accesses }

def gicOf (t : Threads Nat Access Gicd Own) : Gic := ⟨t.shared,fun c => (t.own c).gicr⟩

structure Reset (g : Gic) : Prop where
  disabled : ∀ i : Interrupt, i.Valid → (g.settings i).enabled = false

/-- The SPIs of the kernel stay in group 1, and an FIQ is one of the two SGIs of EL3. -/
structure FiqOnlyEl3 (g : Gic) : Prop where
  spis : ∀ id : BitVec 32, 32 ≤ id.toNat → id.toNat ≤ 128 → (g.settings (.shared id)).group = true
  fiq : ∀ i : Interrupt, i.Valid → (g.settings i).enabled = true → (g.settings i).group = false →
    ∃ core, i = .ofCore core 0 ∨ i = .ofCore core 1

def GicCall.spi? : GicCall → Option (BitVec 32)
  | .el3ConfSpi intId _ _ | .confSpi intId _ _ | .routeSpi intId _ | .enableSpi intId =>
      some intId
  | .el3ConfSgi _ _ _ | .el3ConfPpi _ _ _ | .confSgi _ _ _ | .confPpi _ _ _ | .disableSgi _
  | .disablePpi _ => none

structure Unlocked (d : Gicd) : Prop where
  group : ∀ k, 32 ≤ k → k ≤ 128 → (d.settings k).group = true
  disabled : ∀ k, 128 < k → k < 1020 → (d.settings k).enabled = false

def OwnSafe (l : Own) : Prop :=
  ∀ k < 32, (l.gicr.settings k).enabled = true → (l.gicr.settings k).group = true ∨ k ≤ 1

/-- A copy of word `w` of the group registers that has the SPIs of the kernel in group 1. -/
def GroupCopy (w : Nat) (x : BitVec 32) : Prop :=
  ∀ k, 32 ≤ k → k ≤ 128 → k / 32 = w → x.getLsbD (k % 32) = true

section Distributor
variable {d d' : Gicd} {intId group x : BitVec 32}

theorem Unlocked.copy (h : Unlocked d) (hid : intId.toNat < 1020) :
    GroupCopy (intId.toNat / 32) (d.read (gicdIgroupr (interruptIndex intId))) := by
  rw [Gicd.read,decode_igroupr hid]
  intro k hlo hhi hw
  exact hw ▸ h.group k hlo hhi

theorem GroupCopy.setGroup (h : GroupCopy (intId.toNat / 32) x) (hgroup : group ≠ 0) :
    GroupCopy (intId.toNat / 32) (setGroup x (interruptBitPosition intId) group) := by
  intro k hlo hhi hw
  rw [setGroup_getLsbD (Nat.mod_lt _ (by decide))]
  split
  · exact decide_eq_true hgroup
  · exact h k hlo hhi hw

/-- A copy is written back, however old it is. -/
theorem Unlocked.write_group (h : Unlocked d) (hid : intId.toNat < 1020)
    (hx : GroupCopy (intId.toNat / 32) x) :
    Unlocked (d.write (gicdIgroupr (interruptIndex intId)) x) := by
  rw [Gicd.write,decode_igroupr hid]
  refine ⟨fun k hlo hhi => ?_,h.disabled⟩
  rw [Gicd.settings]
  dsimp only
  by_cases hw : k / 32 = intId.toNat / 32
  · rw [hw,Function.update_self]
    exact hx k hlo hhi hw
  · rw [Function.update_of_ne hw]
    exact h.group k hlo hhi

theorem Unlocked.of_settings (h : Unlocked d) (hid : intId.toNat ≤ 128)
    (new : Settings → Settings) (hnew : ∀ old, (new old).group = old.group)
    (hd : ∀ k, d'.settings k = if k = intId.toNat then new (d.settings k) else d.settings k) :
    Unlocked d' := by
  refine ⟨fun k hlo hhi => ?_,fun k hlo hhi => ?_⟩
  · rw [hd]
    split
    · rw [hnew,h.group k hlo hhi]
    · exact h.group k hlo hhi
  · rw [hd,if_neg (by omega)]
    exact h.disabled k hlo hhi

theorem Unlocked.enable (h : Unlocked d) (hid : intId.toNat ≤ 128) :
    Unlocked (d.write (gicdIsenabler (interruptIndex intId))
      (oneBit (interruptBitPosition intId))) :=
  h.of_settings hid (fun old => { old with enabled := true }) (fun _ => rfl)
    fun _ => settings_enable (by omega)

theorem Unlocked.priority (h : Unlocked d) (hid : intId.toNat ≤ 128) (val : BitVec 8) :
    Unlocked (d.write8 (gicdIpriorityr intId) val) :=
  h.of_settings hid (fun old => { old with priority := val }) (fun _ => rfl)
    fun _ => settings_priority (by omega) val

theorem write64_settings (d : Gicd) (offset : BitVec 32) (val : BitVec 64) :
    (d.write64 offset val).settings = d.settings := by
  unfold Gicd.write64
  split <;> rfl

theorem Unlocked.route (h : Unlocked d) (offset : BitVec 32) (val : BitVec 64) :
    Unlocked (d.write64 offset val) := by
  refine ⟨fun k hlo hhi => ?_,fun k hlo hhi => ?_⟩ <;> rw [write64_settings]
  · exact h.group k hlo hhi
  · exact h.disabled k hlo hhi

theorem unlock_settings (ids : List (BitVec 32)) (hids : ∀ id ∈ ids, id.toNat < 1020) (k : Nat)
    (d : Gicd) :
    (exec (fun d c => GicCall.onGicd c d) d (ids.map fun id => .el3ConfSpi id 0xA0 1)).settings k =
      if k ∈ ids.map BitVec.toNat then ⟨true,(d.settings k).enabled,0xA0⟩ else d.settings k := by
  induction ids generalizing d with
  | nil => rfl
  | cons id ids ih =>
    have hone : (GicCall.onGicd (.el3ConfSpi id 0xA0 1) d).settings k =
        if k = id.toNat then ⟨true,(d.settings k).enabled,0xA0⟩ else d.settings k :=
      gicEl3ConfSpi_settings (hids id List.mem_cons_self) 0xA0 1
    rw [List.map_cons,exec_cons,ih fun id' hid' => hids id' (List.mem_cons_of_mem id hid'),hone,
      List.map_cons]
    simp only [List.mem_cons]
    by_cases hmem : k ∈ ids.map BitVec.toNat
    · rw [if_pos hmem,if_pos (Or.inr hmem)]
      split <;> rfl
    · rw [if_neg hmem]
      simp only [hmem,or_false]

end Distributor

section Redistributor
variable {l : Own} {intId group : BitVec 32}

theorem write8_gicr (r : Gicr) (offset : BitVec 32) (val : BitVec 8) :
    (r.write8 offset val).igroupr0 = r.igroupr0 ∧ (r.write8 offset val).enabled0 = r.enabled0 := by
  unfold Gicr.write8
  split <;> exact ⟨rfl,rfl⟩

theorem OwnSafe.set (h : OwnSafe l) (hgroup : group ≠ 0 ∨ intId.toNat ≤ 1) {l' : Own}
    (hword : l'.gicr.igroupr0 = setGroup l.gicr.igroupr0 intId group)
    (henabled : ∀ k < 32, l'.gicr.enabled0.getLsbD k = true →
      k = intId.toNat ∨ l.gicr.enabled0.getLsbD k = true) : OwnSafe l' := by
  intro k hk hon
  rw [Gicr.settings] at hon ⊢
  dsimp only at hon ⊢
  rw [hword,setGroup_getLsbD hk]
  by_cases heq : k = intId.toNat
  · rw [if_pos heq]
    rcases hgroup with hne | hlow
    · exact .inl (decide_eq_true hne)
    · exact .inr (heq ▸ hlow)
  · rw [if_neg heq]
    exact h k hk ((henabled k hk hon).resolve_left heq)

theorem keeps_redist (hgroup : group ≠ 0 ∨ intId.toNat ≤ 1) (priority : BitVec 8)
    (h : OwnSafe l) :
    Keeps access Unlocked OwnSafe OwnSafe (redistAccesses intId priority group) l := by
  have hread : l.gicr.read gicrIgroupr0 = l.gicr.igroupr0 := if_pos rfl
  have hwritten : OwnSafe ⟨l.gicr.write gicrIgroupr0 (setGroup l.gicr.igroupr0 intId group),
      setGroup l.gicr.igroupr0 intId group⟩ := by
    rw [write_igroupr0]
    exact h.set hgroup rfl fun k _ hon => .inr hon
  have henabled : OwnSafe ⟨(l.gicr.write gicrIgroupr0 (setGroup l.gicr.igroupr0 intId group)).write
      gicrIsenabler0 (oneBit intId),setGroup l.gicr.igroupr0 intId group⟩ := by
    rw [write_isenabler0,write_igroupr0]
    refine h.set hgroup rfl fun k hk hon => ?_
    dsimp only at hon
    rw [or_oneBit hk] at hon
    by_cases heq : k = intId.toNat
    · exact .inl heq
    · rw [if_neg heq] at hon
      exact .inr hon
  have hlast : ∀ {x : Own} (offset val), OwnSafe x →
      OwnSafe { x with gicr := x.gicr.write8 offset val } := by
    intro x offset val hx k hk hon
    obtain ⟨hword,hbits⟩ := write8_gicr x.gicr offset val
    rw [Gicr.settings] at hon ⊢
    dsimp only at hon ⊢
    rw [hbits] at hon
    rw [hword]
    exact hx k hk hon
  refine ⟨h,fun d hd => ⟨hd,h,fun d hd => ⟨hd,?_⟩⟩⟩
  simp only [access,hread]
  exact ⟨hwritten,fun d hd => ⟨hd,henabled,fun d hd => ⟨hd,hlast _ _ henabled,hlast _ _ henabled⟩⟩⟩

theorem OwnSafe.disable (h : OwnSafe l) (val : BitVec 32) :
    OwnSafe { l with gicr := l.gicr.disable val } := by
  intro k hk hon
  refine h k hk ?_
  have hand : (l.gicr.enabled0 &&& ~~~val).getLsbD k = true := hon
  rw [BitVec.getLsbD_and,Bool.and_eq_true] at hand
  exact hand.1

end Redistributor

/-- The calls that the cores make from gic_init_core on. -/
def GicCall.Boots : GicCall → Prop
  | .el3ConfSpi intId _ group | .confSpi intId _ group =>
      32 ≤ intId.toNat ∧ intId.toNat ≤ 128 ∧ group ≠ 0
  | .el3ConfSgi intId _ group | .el3ConfPpi intId _ group | .confSgi intId _ group
  | .confPpi intId _ group => group ≠ 0 ∨ intId.toNat ≤ 1
  | .routeSpi intId _ | .enableSpi intId => 32 ≤ intId.toNat ∧ intId.toNat ≤ 128
  | .disableSgi _ | .disablePpi _ => True

section Calls
variable {c : GicCall} {l : Own}

theorem keeps_none (h : OwnSafe l) : Keeps access Unlocked OwnSafe OwnSafe [] l := ⟨h,h⟩

/-- The core may lose the controller to another one between the read and the write. -/
theorem keeps_group {intId group : BitVec 32} (hid : intId.toNat ≤ 128) (hgroup : group ≠ 0)
    (h : OwnSafe l) {rest : List Access}
    (hrest : ∀ l', OwnSafe l' → Keeps access Unlocked OwnSafe OwnSafe rest l') :
    Keeps access Unlocked OwnSafe OwnSafe (groupAccesses intId group ++ rest) l := by
  have hid' : intId.toNat < 1020 := by omega
  refine ⟨h,fun d hd => ⟨hd,h,fun d' hd' => ⟨?_,?_⟩⟩⟩
  · exact hd'.write_group hid' ((hd.copy hid').setGroup hgroup)
  · exact hrest _ h

theorem keeps_priority {intId : BitVec 32} (hid : intId.toNat ≤ 128) (val : BitVec 8)
    (h : OwnSafe l) :
    Keeps access Unlocked OwnSafe OwnSafe [.gicdWrite8 (gicdIpriorityr intId) val] l :=
  ⟨h,fun _ hd => ⟨hd.priority hid val,keeps_none h⟩⟩

theorem keeps_call (hc : c.Boots) (h : OwnSafe l) :
    Keeps access Unlocked OwnSafe OwnSafe c.accesses l := by
  cases c with
  | el3ConfSpi intId priority group =>
    obtain ⟨-,hid,hgroup⟩ := hc
    exact keeps_group hid hgroup h fun _ h' => keeps_priority hid priority h'
  | confSpi intId priority group =>
    obtain ⟨-,hid,hgroup⟩ := hc
    exact keeps_group hid hgroup h fun _ h' =>
      ⟨h',fun d hd => ⟨hd.enable hid,keeps_priority hid priority h'⟩⟩
  | el3ConfSgi intId priority group | el3ConfPpi intId priority group =>
    rw [GicCall.accesses]
    split
    · exact keeps_none h
    · exact keeps_redist hc priority h
  | confSgi intId priority group | confPpi intId priority group =>
    exact keeps_redist hc priority h
  | routeSpi intId affinity =>
    rw [GicCall.accesses]
    split
    · exact keeps_none h
    · exact ⟨h,fun d hd => ⟨hd.route _ _,keeps_none h⟩⟩
  | enableSpi intId =>
    rw [GicCall.accesses]
    split
    · exact keeps_none h
    · exact ⟨h,fun d hd => ⟨hd.enable hc.2,keeps_none h⟩⟩
  | disableSgi intId | disablePpi intId =>
    rw [GicCall.accesses]
    split
    · exact keeps_none h
    · exact ⟨h,fun d hd => ⟨hd,keeps_none (h.disable _)⟩⟩

theorem gicInitCore_boots : ∀ c ∈ gicInitCore, c.Boots := by
  intro c hc
  simp only [gicInitCore,List.mem_append,List.mem_cons,List.not_mem_nil,or_false,
    List.mem_map] at hc
  rcases hc with (rfl | rfl | rfl) | ⟨i,-,rfl⟩
  · exact .inr (by decide)
  · exact .inr (by decide)
  · exact .inl (by decide)
  · exact .inl (by decide)

theorem KernelPart.Valid.boots {p : KernelPart} (hp : p.Valid) : ∀ c ∈ p.calls, c.Boots := by
  intro c hc
  cases p with
  | gicEl1InitSpi =>
    simp only [KernelPart.calls,List.mem_cons,List.not_mem_nil,or_false] at hc
    rcases hc with rfl | rfl | rfl | rfl | rfl | rfl <;> simp [GicCall.Boots]
  | schedEnable | schedDisable =>
    simp only [KernelPart.calls,List.mem_cons,List.not_mem_nil,or_false] at hc
    rcases hc with rfl | rfl | rfl <;> simp [GicCall.Boots]
  | registerDriver irq =>
    simp only [KernelPart.calls,List.mem_cons,List.not_mem_nil,or_false] at hc
    rcases hc with rfl | rfl | rfl
    · exact ⟨hp.1,hp.2,by decide⟩
    · exact hp
    · exact hp

end Calls

section Boot
variable {d : Gicd} {own : Nat → Own} {made : Nat → Nat} {kernel : Nat → List KernelPart}

theorem unlocked_global (h : ∀ k, 32 ≤ k → k < 1020 → (d.settings k).enabled = false) :
    Unlocked (exec (fun d c => GicCall.onGicd c d) d gicInitGlobal) := by
  let ids := (List.range 97).map fun i => BitVec.ofNat 32 (32 + i)
  have hloop : gicInitGlobal = ids.map fun id => .el3ConfSpi id 0xA0 1 := by
    rw [List.map_map]
    rfl
  have hto : ∀ i < 97, (BitVec.ofNat 32 (32 + i)).toNat = 32 + i := by
    intro i hi
    rw [BitVec.toNat_ofNat]
    omega
  have hids : ∀ id ∈ ids, 32 ≤ id.toNat ∧ id.toNat ≤ 128 := by
    intro id hid
    obtain ⟨i,hi,rfl⟩ := List.mem_map.mp hid
    have hi' := List.mem_range.mp hi
    rw [hto i hi']
    omega
  have hsettings := unlock_settings ids (fun id hid => by have := hids id hid; omega)
  rw [hloop]
  refine ⟨fun k hlo hhi => ?_,fun k hlo hhi => ?_⟩
  · have hmem : k ∈ ids.map BitVec.toNat := by
      refine List.mem_map.mpr ⟨BitVec.ofNat 32 (32 + (k - 32)),?_,?_⟩
      · exact List.mem_map.mpr ⟨k - 32,List.mem_range.mpr (by omega),rfl⟩
      · rw [hto _ (by omega)]
        omega
    rw [hsettings,if_pos hmem]
  · have hmem : k ∉ ids.map BitVec.toNat := by
      intro hmem
      obtain ⟨id,hid,rfl⟩ := List.mem_map.mp hmem
      have := (hids id hid).2
      omega
    rw [hsettings,if_neg hmem]
    exact h k (by omega) hhi

theorem Reset.spis (h : Reset ⟨d,fun c => (own c).gicr⟩) (k : Nat) (hlo : 32 ≤ k)
    (hhi : k < 1020) : (d.settings k).enabled = false := by
  have hto : (BitVec.ofNat 32 k).toNat = k := by
    rw [BitVec.toNat_ofNat]
    omega
  have hi := h.disabled (.shared (BitVec.ofNat 32 k)) (by
    rw [Interrupt.Valid,hto]
    exact ⟨hlo,hhi⟩)
  rwa [Gic.settings,hto] at hi

theorem Reset.ownSafe (h : Reset ⟨d,fun c => (own c).gicr⟩) (c : Nat) : OwnSafe (own c) := by
  intro k hk hon
  have hto : (BitVec.ofNat 32 k).toNat = k := by
    rw [BitVec.toNat_ofNat]
    omega
  have hi := h.disabled (.ofCore c (BitVec.ofNat 32 k)) (by rwa [Interrupt.Valid,hto])
  rw [Gic.settings,hto] at hi
  exact absurd (hi.symm.trans hon) (by decide)

theorem keeps_calls {cs : List GicCall} (hcs : ∀ c ∈ cs, c.Boots) {l : Own} (hl : OwnSafe l) :
    Keeps access Unlocked OwnSafe OwnSafe (cs.flatMap GicCall.accesses) l :=
  keeps_flatMap (fun c hc _ hl' => keeps_call (hcs c hc) hl') hl

theorem kernelCalls_boot {ps : List KernelPart} (hps : ∀ p ∈ ps, p.Valid) :
    ∀ c ∈ ps.flatMap KernelPart.calls, c.Boots := by
  intro c hc
  obtain ⟨p,hp,hc'⟩ := List.mem_flatMap.mp hc
  exact (hps p hp).boots c hc'

theorem boot_keeps (hreset : Reset ⟨d,fun c => (own c).gicr⟩)
    (hkernel : ∀ c, ∀ p ∈ kernel c, p.Valid) :
    ThreadsKeep access Unlocked OwnSafe OwnSafe (bootThreads d own made kernel) := by
  have hd := unlocked_global hreset.spis
  refine ⟨hd,fun c => ?_⟩
  have hinit := (keeps_calls gicInitCore_boots (hreset.ownSafe c)).append fun l hl =>
    keeps_calls (kernelCalls_boot (hkernel c)) hl
  rw [← List.take_append_drop (made c) (gicInitCore.flatMap GicCall.accesses),
    List.append_assoc] at hinit
  exact (hinit.exec hd).2

theorem fiqOnlyEl3_of_keep {t : Threads Nat Access Gicd Own}
    (h : ThreadsKeep access Unlocked OwnSafe OwnSafe t) : FiqOnlyEl3 (gicOf t) := by
  refine ⟨fun id hlo hhi => h.shared.group _ hlo hhi,fun i hi hon hfiq => ?_⟩
  cases i with
  | shared id =>
    rcases Nat.lt_or_ge 128 id.toNat with hhi | hhi
    · exact absurd ((h.shared.disabled _ hhi hi.2).symm.trans hon) (by decide)
    · exact absurd (hfiq.symm.trans (h.shared.group _ hi.1 hhi)) (by decide)
  | ofCore core id =>
    rcases (h.threads core).own id.toNat hi hon with hgroup | hlow
    · exact absurd (hfiq.symm.trans hgroup) (by decide)
    · refine ⟨core,?_⟩
      have hsgi : id = 0 ∨ id = 1 := by
        rw [← BitVec.toNat_inj,← BitVec.toNat_inj]
        exact Nat.le_one_iff_eq_zero_or_eq_one.mp hlow
      exact hsgi.imp (congrArg (Interrupt.ofCore core)) (congrArg (Interrupt.ofCore core))

end Boot

/-- From the end of gic_init_global on, at every access of every interleaving of the cores, with
any functions of the kernel on each of them, the SPIs that EL3 has given to the kernel are in
group 1 although GICD_IGROUPR is read and written back without a lock, and the only interrupts
that can come as an FIQ are the two SGIs that el3_fiq knows. -/
theorem fiq_only_el3 (d : Gicd) (own : Nat → Own) (made : Nat → Nat)
    (kernel : Nat → List KernelPart) (hreset : Reset ⟨d,fun c => (own c).gicr⟩)
    (hkernel : ∀ c, ∀ p ∈ kernel c, p.Valid) (cores : List Nat) :
    FiqOnlyEl3 (gicOf (exec (threadStep access) (bootThreads d own made kernel) cores)) :=
  fiqOnlyEl3_of_keep ((boot_keeps hreset hkernel).run cores)

/-- Two cores that register drivers at once, before gic_init_global: core 1 writes back a word
that it has read before core 0 wrote it. -/
example : ((exec (threadStep access)
    { bootThreads zeroGic.gicd (fun _ => ⟨zeroGic.gicr 0,0⟩) (fun _ => 44)
        (fun c => if c = 0 then [.registerDriver 48] else [.registerDriver 49]) with
      shared := zeroGic.gicd } [0,1,0,1,0]).shared.settings 48) = ⟨false,true,0⟩ := by decide

theorem zeroGic_reset : Reset ⟨zeroGic.gicd,fun _ => zeroGic.gicr 0⟩ := by
  refine ⟨fun i _ => ?_⟩
  cases i <;> simp [Gic.settings,Gicd.settings,Gicr.settings,zeroGic]

/-- The second core comes to its redistributor while the first one registers a driver. -/
theorem fiq_only_el3_second :
    FiqOnlyEl3 (gicOf (exec (threadStep access)
      (bootThreads zeroGic.gicd (fun _ => ⟨zeroGic.gicr 0,0⟩) (fun c => if c = 0 then 44 else 7)
        fun c =>
          if c = 0 then [.gicEl1InitSpi,.registerDriver 48,.schedEnable] else [.schedEnable])
      [0,1,0,1,0,1])) := by
  refine fiq_only_el3 _ _ _ _ zeroGic_reset (fun c p hp => ?_) _
  split at hp
  · simp only [List.mem_cons,List.not_mem_nil,or_false] at hp
    rcases hp with rfl | rfl | rfl
    · exact trivial
    · exact ⟨by decide,by decide⟩
    · exact trivial
  · rw [List.mem_singleton.mp hp]
    exact trivial

def spiPart (k : Nat) (d : Gicd) : Bool × BitVec 8 × BitVec 64 :=
  ((d.settings k).enabled,(d.settings k).priority,d.irouter k)

def Access.GroupWord : Access → Prop
  | .gicdGroup offset _ _ => ∃ n, GicdReg.decode offset = .igroupr n
  | _ => True

section Parts
variable {d d' : Gicd} {k : Nat}

theorem write_group_part {offset : BitVec 32} {n : Nat}
    (h : GicdReg.decode offset = .igroupr n) (val : BitVec 32) :
    spiPart k (d.write offset val) = spiPart k d := by
  rw [Gicd.write,h]
  rfl

theorem write_part (h : spiPart k d = spiPart k d') (offset val : BitVec 32) :
    spiPart k (d.write offset val) = spiPart k (d'.write offset val) := by
  obtain ⟨henabled,hrest⟩ := Prod.mk.inj h
  have hbit : (d.enabled (k / 32)).getLsbD (k % 32) = (d'.enabled (k / 32)).getLsbD (k % 32) :=
    henabled
  unfold Gicd.write
  split
  · exact h
  · rename_i n _
    refine Prod.ext ?_ hrest
    simp only [spiPart,Gicd.settings]
    by_cases hn : k / 32 = n
    · subst hn
      rw [Function.update_self,Function.update_self,BitVec.getLsbD_or,BitVec.getLsbD_or,hbit]
    · rw [Function.update_of_ne hn,Function.update_of_ne hn,hbit]
  · rename_i n _
    refine Prod.ext ?_ hrest
    simp only [spiPart,Gicd.settings]
    by_cases hn : k / 32 = n
    · subst hn
      rw [Function.update_self,Function.update_self,BitVec.getLsbD_and,BitVec.getLsbD_and,hbit]
    · rw [Function.update_of_ne hn,Function.update_of_ne hn,hbit]
  · exact h

theorem write8_part (h : spiPart k d = spiPart k d') (offset : BitVec 32) (val : BitVec 8) :
    spiPart k (d.write8 offset val) = spiPart k (d'.write8 offset val) := by
  obtain ⟨henabled,hrest⟩ := Prod.mk.inj h
  obtain ⟨hpriority,hroute⟩ := Prod.mk.inj hrest
  unfold Gicd.write8
  split
  · refine Prod.ext henabled (Prod.ext ?_ hroute)
    have hprio : d.ipriorityr k = d'.ipriorityr k := hpriority
    simp only [spiPart,Gicd.settings,Function.update_apply,hprio]
  · exact h

theorem write64_part (h : spiPart k d = spiPart k d') (offset : BitVec 32) (val : BitVec 64) :
    spiPart k (d.write64 offset val) = spiPart k (d'.write64 offset val) := by
  obtain ⟨henabled,hrest⟩ := Prod.mk.inj h
  obtain ⟨hpriority,hroute⟩ := Prod.mk.inj hrest
  unfold Gicd.write64
  split
  · refine Prod.ext henabled (Prod.ext hpriority ?_)
    have hrout : d.irouter k = d'.irouter k := hroute
    simp only [spiPart,Function.update_apply,hrout]
  · exact h

theorem access_part {a : Access} (ha : a.GroupWord) {x y : Gicd × Own}
    (h : spiPart k x.1 = spiPart k y.1) : spiPart k (access a x).1 = spiPart k (access a y).1 := by
  obtain ⟨d,l⟩ := x
  obtain ⟨d',l'⟩ := y
  cases a with
  | gicdGroup offset bit group =>
    obtain ⟨n,hn⟩ := ha
    exact (write_group_part hn _).trans (h.trans (write_group_part hn _).symm)
  | gicdWrite offset val => exact write_part h offset val
  | gicdWrite8 offset val => exact write8_part h offset val
  | gicdWrite64 offset val => exact write64_part h offset val
  | _ => exact h

theorem irouter_offset {intId : BitVec 32} (h : intId.toNat < 1020) :
    (gicdIrouter intId).toNat = 0x6000 + intId.toNat * 8 := by
  have hbase : (0x6000 : BitVec 32).toNat = 0x6000 := rfl
  have height : (8 : BitVec 32).toNat = 8 := rfl
  rw [gicdIrouter,BitVec.toNat_add,BitVec.toNat_mul,hbase,height]
  omega

theorem spare_settings (hsettings : d'.settings k = d.settings k)
    (hroute : d'.irouter = d.irouter) : spiPart k d' = spiPart k d := by
  rw [spiPart,spiPart,hsettings,hroute]

theorem write_irouter (d : Gicd) (offset val : BitVec 32) :
    (d.write offset val).irouter = d.irouter := by
  unfold Gicd.write
  split <;> rfl

theorem write8_irouter (d : Gicd) (offset : BitVec 32) (val : BitVec 8) :
    (d.write8 offset val).irouter = d.irouter := by
  unfold Gicd.write8
  split <;> rfl

variable {intId : BitVec 32}

theorem enable_spares (hid : intId.toNat < 1020) (hk : k ≠ intId.toNat) (x : Gicd × Own) :
    spiPart k (access (enableAccess intId) x).1 = spiPart k x.1 :=
  spare_settings ((settings_enable hid).trans (if_neg hk)) (write_irouter _ _ _)

theorem priority_spares (hid : intId.toNat < 1020) (hk : k ≠ intId.toNat) (val : BitVec 8)
    (x : Gicd × Own) :
    spiPart k (access (.gicdWrite8 (gicdIpriorityr intId) val) x).1 = spiPart k x.1 :=
  spare_settings ((settings_priority hid val).trans (if_neg hk)) (write8_irouter _ _ _)

theorem route_spares (hid : intId.toNat < 1020) (hk : k ≠ intId.toNat) (affinity : BitVec 64)
    (x : Gicd × Own) :
    spiPart k (access (.gicdWrite64 (gicdIrouter intId) affinity) x).1 = spiPart k x.1 := by
  have hindex : (0x6000 + intId.toNat * 8 - 0x6000) / 8 = intId.toNat := by omega
  rw [access,Gicd.write64,irouter_offset hid,hindex]
  split
  · simp only [spiPart,Function.update_of_ne hk]
    rfl
  · rfl

theorem call_part {c : GicCall} (hc : c.Boots) {a : Access} (ha : a ∈ c.accesses) :
    a.GroupWord ∧ ((∀ id, c.spi? = some id → k ≠ id.toNat) →
      ∀ x : Gicd × Own, spiPart k (access a x).1 = spiPart k x.1) := by
  have hgroup : ∀ {intId group : BitVec 32}, intId.toNat ≤ 128 →
      a ∈ groupAccesses intId group → a.GroupWord ∧
        ∀ x : Gicd × Own, spiPart k (access a x).1 = spiPart k x.1 := by
    intro intId group hid hmem
    have hdecode := @decode_igroupr intId (by omega)
    simp only [groupAccesses,List.mem_cons,List.not_mem_nil,or_false] at hmem
    rcases hmem with rfl | rfl
    · exact ⟨trivial,fun _ => rfl⟩
    · exact ⟨⟨_,hdecode⟩,fun x => write_group_part hdecode _⟩
  have hredist : ∀ {intId group : BitVec 32} {priority}, a ∈ redistAccesses intId priority group →
      a.GroupWord ∧ ∀ x : Gicd × Own, spiPart k (access a x).1 = spiPart k x.1 := by
    intro intId group priority hmem
    simp only [redistAccesses,List.mem_cons,List.not_mem_nil,or_false] at hmem
    rcases hmem with rfl | rfl | rfl | rfl <;> exact ⟨trivial,fun _ => rfl⟩
  cases c with
  | el3ConfSpi intId priority group =>
    obtain ⟨-,hid,-⟩ := hc
    rcases List.mem_append.mp ha with hmem | hmem
    · exact (hgroup hid hmem).imp_right fun h _ => h
    · rw [List.mem_singleton.mp hmem]
      exact ⟨trivial,fun hk x => priority_spares (by omega) (hk intId rfl) priority x⟩
  | confSpi intId priority group =>
    obtain ⟨-,hid,-⟩ := hc
    rcases List.mem_append.mp ha with hmem | hmem
    · exact (hgroup hid hmem).imp_right fun h _ => h
    · simp only [List.mem_cons,List.not_mem_nil,or_false] at hmem
      rcases hmem with rfl | rfl
      · exact ⟨trivial,fun hk x => enable_spares (by omega) (hk intId rfl) x⟩
      · exact ⟨trivial,fun hk x => priority_spares (by omega) (hk intId rfl) priority x⟩
  | el3ConfSgi intId priority group | el3ConfPpi intId priority group =>
    rw [GicCall.accesses] at ha
    split at ha
    · cases ha
    · exact (hredist ha).imp_right fun h _ => h
  | confSgi intId priority group | confPpi intId priority group =>
    exact (hredist ha).imp_right fun h _ => h
  | routeSpi intId affinity =>
    obtain ⟨-,hid⟩ := hc
    rw [GicCall.accesses] at ha
    split at ha
    · cases ha
    · rw [List.mem_singleton.mp ha]
      exact ⟨trivial,fun hk x => route_spares (by omega) (hk intId rfl) affinity x⟩
  | enableSpi intId =>
    obtain ⟨-,hid⟩ := hc
    rw [GicCall.accesses] at ha
    split at ha
    · cases ha
    · rw [List.mem_singleton.mp ha]
      exact ⟨trivial,fun hk x => enable_spares (by omega) (hk intId rfl) x⟩
  | disableSgi intId | disablePpi intId =>
    rw [GicCall.accesses] at ha
    split at ha
    · cases ha
    · rw [List.mem_singleton.mp ha]
      exact ⟨trivial,fun _ _ => rfl⟩

end Parts

section Alone
variable {d : Gicd} {own : Nat → Own} {made : Nat → Nat} {kernel : Nat → List KernelPart}

theorem calls_exec (cs : List GicCall) (x : Gicd × Own) :
    (exec (fun x a => access a x) x (cs.flatMap GicCall.accesses)).1 =
      exec (fun d c => GicCall.onGicd c d) x.1 cs := by
  induction cs generalizing x with
  | nil => rfl
  | cons c cs ih => rw [List.flatMap_cons,exec_append,ih,(accesses_exec c x.1 x.2).1,exec_cons]

theorem redist_gicd {c : GicCall} (hc : c.spi? = none) {a : Access} (ha : a ∈ c.accesses)
    (x : Gicd × Own) : (access a x).1 = x.1 := by
  have hredist : ∀ {intId group : BitVec 32} {priority}, a ∈ redistAccesses intId priority group →
      (access a x).1 = x.1 := by
    intro intId group priority hmem
    simp only [redistAccesses,List.mem_cons,List.not_mem_nil,or_false] at hmem
    rcases hmem with rfl | rfl | rfl | rfl <;> rfl
  cases c with
  | el3ConfSpi | confSpi | routeSpi | enableSpi => cases hc
  | confSgi | confPpi => exact hredist ha
  | el3ConfSgi | el3ConfPpi =>
    rw [GicCall.accesses] at ha
    split at ha
    · cases ha
    · exact hredist ha
  | disableSgi | disablePpi =>
    rw [GicCall.accesses] at ha
    split at ha
    · cases ha
    · rw [List.mem_singleton.mp ha]
      rfl

theorem gicInitCore_spi : ∀ c ∈ gicInitCore, c.spi? = none := by
  intro c hc
  simp only [gicInitCore,List.mem_append,List.mem_cons,List.not_mem_nil,or_false,
    List.mem_map] at hc
  rcases hc with (rfl | rfl | rfl) | ⟨i,-,rfl⟩ <;> rfl

theorem gicInitCore_gicd {as : List Access}
    (has : ∀ a ∈ as, a ∈ gicInitCore.flatMap GicCall.accesses) (x : Gicd × Own) :
    (exec (fun x a => access a x) x as).1 = x.1 := by
  induction as generalizing x with
  | nil => rfl
  | cons a as ih =>
    obtain ⟨c,hc,ha⟩ := List.mem_flatMap.mp (has a List.mem_cons_self)
    rw [exec_cons,ih fun b hb => has b (List.mem_cons_of_mem a hb)]
    exact redist_gicd (gicInitCore_spi c hc) ha x

theorem mem_bootThreads {c : Nat} {a : Access}
    (ha : a ∈ (bootThreads d own made kernel).todo c) :
    ∃ call ∈ gicInitCore ++ (kernel c).flatMap KernelPart.calls, a ∈ call.accesses := by
  rcases List.mem_append.mp ha with hmem | hmem
  · obtain ⟨call,hcall,hmem'⟩ := List.mem_flatMap.mp (List.mem_of_mem_drop hmem)
    exact ⟨call,List.mem_append_left _ hcall,hmem'⟩
  · obtain ⟨call,hcall,hmem'⟩ := List.mem_flatMap.mp hmem
    exact ⟨call,List.mem_append_right _ hcall,hmem'⟩

theorem bootCalls_boot (hkernel : ∀ c, ∀ p ∈ kernel c, p.Valid) (c : Nat) :
    ∀ call ∈ gicInitCore ++ (kernel c).flatMap KernelPart.calls, call.Boots := fun call hcall =>
  (List.mem_append.mp hcall).elim (gicInitCore_boots call) (kernelCalls_boot (hkernel c) call)

theorem spi_ownPart (hkernel : ∀ c, ∀ p ∈ kernel c, p.Valid) {core : Nat} {id : BitVec 32}
    (halone : ∀ c, c ≠ core → ∀ p ∈ kernel c, ∀ call ∈ p.calls, call.spi? ≠ some id) :
    OwnPart access (spiPart id.toNat) core (bootThreads d own made kernel) := by
  constructor
  · intro a ha x y hxy
    obtain ⟨call,hcall,ha⟩ := mem_bootThreads ha
    exact access_part (@call_part 0 call (bootCalls_boot hkernel core call hcall) a ha).1 hxy
  · intro c hc a ha x
    obtain ⟨call,hcall,ha⟩ := mem_bootThreads ha
    refine (call_part (bootCalls_boot hkernel c call hcall) ha).2 (fun other hother heq => ?_) x
    rw [← BitVec.toNat_inj.mp heq] at hother
    rcases List.mem_append.mp hcall with hmem | hmem
    · rw [gicInitCore_spi call hmem] at hother
      cases hother
    · obtain ⟨p,hp,hmem⟩ := List.mem_flatMap.mp hmem
      exact halone c hc p hp call hmem hother

theorem settings_ext {a b : Settings} (hgroup : a.group = b.group)
    (henabled : a.enabled = b.enabled) (hpriority : a.priority = b.priority) : a = b := by
  cases a
  cases b
  simp only [Settings.mk.injEq]
  exact ⟨hgroup,henabled,hpriority⟩

theorem alone_exec (core : Nat) (l : Own) :
    (exec (fun x a => access a x) ((bootThreads d own made kernel).shared,l)
        ((bootThreads d own made kernel).todo core)).1 =
      exec (fun d c => GicCall.onGicd c d) (exec (fun d c => GicCall.onGicd c d) d gicInitGlobal)
        ((kernel core).flatMap KernelPart.calls) := by
  rw [bootThreads]
  dsimp only
  rw [exec_append,calls_exec,gicInitCore_gicd fun a ha => List.mem_of_mem_drop ha]

end Alone

/-- A core that is through with its part of the kernel has configured an SPI, which no other core
names, as if it had been alone, wherever the others stood: none of its accesses is undone by the
group words that they write back. -/
theorem spi_as_alone (d : Gicd) (own : Nat → Own) (made : Nat → Nat)
    (kernel : Nat → List KernelPart) (hreset : Reset ⟨d,fun c => (own c).gicr⟩)
    (hkernel : ∀ c, ∀ p ∈ kernel c, p.Valid) (core : Nat) (id : BitVec 32) (hlo : 32 ≤ id.toNat)
    (hhi : id.toNat ≤ 128)
    (halone : ∀ c, c ≠ core → ∀ p ∈ kernel c, ∀ call ∈ p.calls, call.spi? ≠ some id)
    (cores : List Nat)
    (hdone : (exec (threadStep access) (bootThreads d own made kernel) cores).todo core = []) :
    let g := (exec (threadStep access) (bootThreads d own made kernel) cores).shared
    let alone := exec (fun d c => GicCall.onGicd c d)
      (exec (fun d c => GicCall.onGicd c d) d gicInitGlobal)
      ((kernel core).flatMap KernelPart.calls)
    g.settings id.toNat = alone.settings id.toNat ∧
      g.irouter id.toNat = alone.irouter id.toNat := by
  intro g alone
  have hkeep : ThreadsKeep access Unlocked OwnSafe OwnSafe (bootThreads d own made kernel) :=
    boot_keeps hreset hkernel
  have hown : OwnPart access (spiPart id.toNat) core (bootThreads d own made kernel) :=
    spi_ownPart hkernel halone
  have hpart : spiPart id.toNat g = spiPart id.toNat alone := by
    have hrun := hown.run (x := ((bootThreads d own made kernel).shared,own core)) rfl cores hdone
    rwa [alone_exec] at hrun
  have hgroup : (g.settings id.toNat).group = (alone.settings id.toNat).group := by
    have hthread := hkeep.threads core
    rw [← List.append_nil ((bootThreads d own made kernel).todo core)] at hthread
    have hunlocked := (hthread.exec hkeep.shared).1
    rw [alone_exec] at hunlocked
    rw [(hkeep.run cores).shared.group _ hlo hhi,hunlocked.group _ hlo hhi]
  obtain ⟨henabled,hrest⟩ := Prod.mk.inj hpart
  obtain ⟨hpriority,hroute⟩ := Prod.mk.inj hrest
  exact ⟨settings_ext hgroup henabled hpriority,hroute⟩

/-- Two cores register a driver each. The second one reads the group word before the first one has
written its own, and writes it after that. -/
theorem spi_as_alone_two :
    let boot := bootThreads zeroGic.gicd (fun _ => ⟨zeroGic.gicr 0,0⟩) (fun _ => 44)
      fun c => if c = 0 then [.registerDriver 48] else [.registerDriver 49]
    let g := (exec (threadStep access) boot [0,1,0,1,0,0,0,0,1,1]).shared
    g.settings 48 = ⟨true,true,0x80⟩ ∧ g.irouter 48 = 0 := by
  intro boot g
  obtain ⟨hsettings,hroute⟩ := spi_as_alone zeroGic.gicd (fun _ => ⟨zeroGic.gicr 0,0⟩)
    (fun _ => 44) (fun c => if c = 0 then [.registerDriver 48] else [.registerDriver 49])
    zeroGic_reset
    (fun c p hp => by
      split at hp <;> rw [List.mem_singleton.mp hp] <;> exact ⟨by decide,by decide⟩)
    0 48 (by decide) (by decide)
    (fun c hc p hp call hcall => by
      rw [if_neg hc] at hp
      rw [List.mem_singleton.mp hp] at hcall
      simp only [KernelPart.calls,List.mem_cons,List.not_mem_nil,or_false] at hcall
      rcases hcall with rfl | rfl | rfl <;> decide)
    [0,1,0,1,0,0,0,0,1,1] (by decide)
  exact ⟨hsettings.trans (by decide),hroute.trans (by decide)⟩

end Arm64.GicConfig

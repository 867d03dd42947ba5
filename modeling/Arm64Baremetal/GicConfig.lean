import Arm64Baremetal.LastSet

set_option autoImplicit false

namespace Arm64.GicConfig
open Runs LastSet

/-- The distributor. An enable bit is read and written through two registers. -/
structure Gicd where
  igroupr : Nat → BitVec 32
  enabled : Nat → BitVec 32
  ipriorityr : Nat → BitVec 8
  irouter : Nat → BitVec 64

structure Gicr where
  igroupr0 : BitVec 32
  enabled0 : BitVec 32
  ipriorityr : Nat → BitVec 8
  nsacr0 : BitVec 32

structure Gic where
  gicd : Gicd
  gicr : Nat → Gicr

def gicdIgroupr (n : BitVec 32) : BitVec 32 := 0x0080 + n * 4
def gicdIsenabler (n : BitVec 32) : BitVec 32 := 0x0100 + n * 4
def gicdIcenabler (n : BitVec 32) : BitVec 32 := 0x0180 + n * 4
def gicdIpriorityr (n : BitVec 32) : BitVec 32 := 0x0400 + n
def gicdIrouter (n : BitVec 32) : BitVec 32 := 0x6000 + n * 8

def gicrSgiOffset : BitVec 32 := 0x10000
def gicrIgroupr0 : BitVec 32 := gicrSgiOffset + 0x0080
def gicrIsenabler0 : BitVec 32 := gicrSgiOffset + 0x0100
def gicrIpriorityr (n : BitVec 32) : BitVec 32 := gicrSgiOffset + 0x0400 + n
def gicrNsacr0 : BitVec 32 := gicrSgiOffset + 0x0E00

def interruptIndex (intId : BitVec 32) : BitVec 32 := intId / 32
def interruptBitPosition (intId : BitVec 32) : BitVec 32 := intId % 32

/-- The word at an offset of the distributor. -/
inductive GicdReg where
  | igroupr (n : Nat)
  | isenabler (n : Nat)
  | icenabler (n : Nat)
  | other
  deriving DecidableEq

def GicdReg.decode (offset : BitVec 32) : GicdReg :=
  let a := offset.toNat
  if a < 0x80 then .other
  else if a < 0x100 then .igroupr ((a - 0x80) / 4)
  else if a < 0x180 then .isenabler ((a - 0x100) / 4)
  else if a < 0x200 then .icenabler ((a - 0x180) / 4)
  else .other

namespace Gicd

def read (g : Gicd) (offset : BitVec 32) : BitVec 32 :=
  match GicdReg.decode offset with
  | .igroupr n => g.igroupr n
  | .isenabler n | .icenabler n => g.enabled n
  | .other => 0

def write (g : Gicd) (offset val : BitVec 32) : Gicd :=
  match GicdReg.decode offset with
  | .igroupr n => { g with igroupr := Function.update g.igroupr n val }
  | .isenabler n => { g with enabled := Function.update g.enabled n (g.enabled n ||| val) }
  | .icenabler n => { g with enabled := Function.update g.enabled n (g.enabled n &&& ~~~val) }
  | .other => g

def write8 (g : Gicd) (offset : BitVec 32) (val : BitVec 8) : Gicd :=
  if 0x400 ≤ offset.toNat ∧ offset.toNat < 0x800 then
    { g with ipriorityr := Function.update g.ipriorityr (offset.toNat - 0x400) val }
  else g

def write64 (g : Gicd) (offset : BitVec 32) (val : BitVec 64) : Gicd :=
  if 0x6000 ≤ offset.toNat ∧ offset.toNat < 0x8000 then
    { g with irouter := Function.update g.irouter ((offset.toNat - 0x6000) / 8) val }
  else g

end Gicd

namespace Gicr

def read (r : Gicr) (offset : BitVec 32) : BitVec 32 :=
  if offset = gicrIgroupr0 then r.igroupr0
  else if offset = gicrIsenabler0 then r.enabled0
  else if offset = gicrNsacr0 then r.nsacr0
  else 0

def write (r : Gicr) (offset val : BitVec 32) : Gicr :=
  if offset = gicrIgroupr0 then { r with igroupr0 := val }
  else if offset = gicrIsenabler0 then { r with enabled0 := r.enabled0 ||| val }
  else if offset = gicrNsacr0 then { r with nsacr0 := val }
  else r

def write8 (r : Gicr) (offset : BitVec 32) (val : BitVec 8) : Gicr :=
  if 0x10400 ≤ offset.toNat ∧ offset.toNat < 0x10420 then
    { r with ipriorityr := Function.update r.ipriorityr (offset.toNat - 0x10400) val }
  else r

end Gicr

/-- `1 << bit` -/
def oneBit (bit : BitVec 32) : BitVec 32 := (1 : BitVec 32) <<< bit.toNat

def setGroup (igroup bit group : BitVec 32) : BitVec 32 :=
  if group ≠ 0 then igroup ||| oneBit bit else igroup &&& ~~~oneBit bit

def gicEl3ConfSpi (intId : BitVec 32) (priority : BitVec 8) (group : BitVec 32) (g : Gicd) :
    Gicd :=
  let index := interruptIndex intId
  let bit := interruptBitPosition intId
  let igroup := setGroup (g.read (gicdIgroupr index)) bit group
  (g.write (gicdIgroupr index) igroup).write8 (gicdIpriorityr intId) priority

def gicConfSpi (intId : BitVec 32) (priority : BitVec 8) (group : BitVec 32) (g : Gicd) : Gicd :=
  let index := interruptIndex intId
  let bit := interruptBitPosition intId
  let igroup := setGroup (g.read (gicdIgroupr index)) bit group
  ((g.write (gicdIgroupr index) igroup).write (gicdIsenabler index) (oneBit bit)).write8
    (gicdIpriorityr intId) priority

def gicRouteSpi (intId : BitVec 32) (affinity : BitVec 64) (g : Gicd) : Gicd :=
  if intId < 32 then g else g.write64 (gicdIrouter intId) affinity

def gicEnableSpi (intId : BitVec 32) (g : Gicd) : Gicd :=
  if intId < 32 then g
  else
    g.write (gicdIsenabler (interruptIndex intId)) (oneBit (interruptBitPosition intId))

def gicDisableSpi (intId : BitVec 32) (g : Gicd) : Gicd :=
  if intId < 32 then g
  else
    g.write (gicdIcenabler (interruptIndex intId)) (oneBit (interruptBitPosition intId))

/-- The common part of gic_el3_conf_sgi and gic_el3_conf_ppi. -/
def confRedist (intId : BitVec 32) (priority : BitVec 8) (group : BitVec 32) (r : Gicr) : Gicr :=
  let igroup := setGroup (r.read gicrIgroupr0) intId group
  ((r.write gicrIgroupr0 igroup).write gicrIsenabler0 (oneBit intId)).write8
    (gicrIpriorityr intId) priority

def gicEl3ConfSgi (intId : BitVec 32) (priority : BitVec 8) (group : BitVec 32) (r : Gicr) :
    Gicr :=
  if 15 < intId then r else confRedist intId priority group r

def gicEl3ConfPpi (intId : BitVec 32) (priority : BitVec 8) (group : BitVec 32) (r : Gicr) :
    Gicr :=
  if intId < 16 ∨ 31 < intId then r else confRedist intId priority group r

def gicEl3UnlockSgi (intId : BitVec 32) (r : Gicr) : Gicr :=
  if 15 < intId then r else r.write gicrNsacr0 ((2 : BitVec 32) <<< (intId * 2).toNat)

/-- A call, with the core whose redistributor is at rd_base. -/
inductive Call where
  | el3ConfSpi (intId : BitVec 32) (priority : BitVec 8) (group : BitVec 32)
  | el3ConfSgi (core : Nat) (intId : BitVec 32) (priority : BitVec 8) (group : BitVec 32)
  | el3ConfPpi (core : Nat) (intId : BitVec 32) (priority : BitVec 8) (group : BitVec 32)
  | el3UnlockSgi (core : Nat) (intId : BitVec 32)
  | confSpi (intId : BitVec 32) (priority : BitVec 8) (group : BitVec 32)
  | enableSpi (intId : BitVec 32)
  | disableSpi (intId : BitVec 32)
  deriving DecidableEq

namespace Gic

def onGicr (g : Gic) (core : Nat) (f : Gicr → Gicr) : Gic :=
  { g with gicr := Function.update g.gicr core (f (g.gicr core)) }

def call (g : Gic) : Call → Gic
  | .el3ConfSpi intId priority group =>
      { g with gicd := gicEl3ConfSpi intId priority group g.gicd }
  | .el3ConfSgi core intId priority group => g.onGicr core (gicEl3ConfSgi intId priority group)
  | .el3ConfPpi core intId priority group => g.onGicr core (gicEl3ConfPpi intId priority group)
  | .el3UnlockSgi core intId => g.onGicr core (gicEl3UnlockSgi intId)
  | .confSpi intId priority group => { g with gicd := gicConfSpi intId priority group g.gicd }
  | .enableSpi intId => { g with gicd := gicEnableSpi intId g.gicd }
  | .disableSpi intId => { g with gicd := gicDisableSpi intId g.gicd }

end Gic

inductive Interrupt where
  | shared (intId : BitVec 32)
  | ofCore (core : Nat) (intId : BitVec 32)
  deriving DecidableEq

def Interrupt.Valid : Interrupt → Prop
  | .shared intId => 32 ≤ intId.toNat ∧ intId.toNat < 1020
  | .ofCore _ intId => intId.toNat < 32

structure Settings where
  group : Bool
  enabled : Bool
  priority : BitVec 8
  deriving DecidableEq

def Gicd.settings (g : Gicd) (intId : Nat) : Settings where
  group := (g.igroupr (intId / 32)).getLsbD (intId % 32)
  enabled := (g.enabled (intId / 32)).getLsbD (intId % 32)
  priority := g.ipriorityr intId

def Gicr.settings (r : Gicr) (intId : Nat) : Settings where
  group := r.igroupr0.getLsbD intId
  enabled := r.enabled0.getLsbD intId
  priority := r.ipriorityr intId

def Gic.settings (g : Gic) : Interrupt → Settings
  | .shared intId => g.gicd.settings intId.toNat
  | .ofCore core intId => (g.gicr core).settings intId.toNat

/-- The field of an SGI in NSACR. -/
def Gicr.access (r : Gicr) (intId : BitVec 32) : BitVec 2 :=
  r.nsacr0.extractLsb' (2 * intId.toNat) 2

namespace Call

def interrupt : Call → Interrupt
  | .el3ConfSpi intId _ _ | .confSpi intId _ _ | .enableSpi intId | .disableSpi intId =>
      .shared intId
  | .el3ConfSgi core intId _ _ | .el3ConfPpi core intId _ _ | .el3UnlockSgi core intId =>
      .ofCore core intId

def Valid : Call → Prop
  | .el3ConfSpi intId _ _ | .confSpi intId _ _ => 32 ≤ intId.toNat ∧ intId.toNat < 1020
  | .enableSpi intId | .disableSpi intId => intId.toNat < 1020
  | .el3ConfSgi _ intId _ _ | .el3UnlockSgi _ intId => intId.toNat < 16
  | .el3ConfPpi _ intId _ _ => 16 ≤ intId.toNat ∧ intId.toNat < 32

def group? : Call → Option Bool
  | .el3ConfSpi _ _ group | .confSpi _ _ group | .el3ConfSgi _ _ _ group
  | .el3ConfPpi _ _ _ group => some (group ≠ 0)
  | .el3UnlockSgi _ _ | .enableSpi _ | .disableSpi _ => none

/-- gic_el3_conf_spi leaves the enable bit alone. -/
def enabled? : Call → Option Bool
  | .confSpi _ _ _ | .el3ConfSgi _ _ _ _ | .el3ConfPpi _ _ _ _ | .enableSpi _ => some true
  | .disableSpi _ => some false
  | .el3ConfSpi _ _ _ | .el3UnlockSgi _ _ => none

def priority? : Call → Option (BitVec 8)
  | .el3ConfSpi _ priority _ | .confSpi _ priority _ | .el3ConfSgi _ _ priority _
  | .el3ConfPpi _ _ priority _ => some priority
  | .el3UnlockSgi _ _ | .enableSpi _ | .disableSpi _ => none

def access? : Call → Option (BitVec 2)
  | .el3UnlockSgi _ _ => some 2
  | _ => none

end Call

def gives {υ : Type} (field? : Call → Option υ) (i : Interrupt) (c : Call) : Option υ :=
  if c.interrupt = i then field? c else none

/-- Each field of each interrupt is what the last call that names the interrupt and sets the
field gave it, or what it was before. -/
structure Independent (g₀ g : Gic) (cs : List Call) : Prop where
  group : ∀ i : Interrupt, i.Valid →
    (g.settings i).group = (last (gives Call.group? i) cs).getD (g₀.settings i).group
  enabled : ∀ i : Interrupt, i.Valid →
    (g.settings i).enabled = (last (gives Call.enabled? i) cs).getD (g₀.settings i).enabled
  priority : ∀ i : Interrupt, i.Valid →
    (g.settings i).priority = (last (gives Call.priority? i) cs).getD (g₀.settings i).priority
  access : ∀ core (intId : BitVec 32), intId.toNat < 16 → (g.gicr core).access intId =
    (last (gives Call.access? (.ofCore core intId)) cs).getD ((g₀.gicr core).access intId)

/-- On each core one SGI at most is unlocked, and then no other was open before. -/
def OneUnlocked (g₀ : Gic) (cs : List Call) : Prop :=
  ∀ core intId, .el3UnlockSgi core intId ∈ cs → ∀ other : BitVec 32, other.toNat < 16 →
    other ≠ intId → .el3UnlockSgi core other ∉ cs ∧ (g₀.gicr core).access other = 0

section Bits
variable {w bit group : BitVec 32} {j : Nat}

theorem oneBit_getLsbD (hj : j < 32) : (oneBit bit).getLsbD j = decide (j = bit.toNat) := by
  rw [oneBit,BitVec.getLsbD_shiftLeft]
  by_cases h : j = bit.toNat
  · simp [h ▸ hj,h]
  · rcases Nat.lt_or_gt_of_ne h with h' | h'
    · simp [h',h]
    · have hsub : j - bit.toNat ≠ 0 := by omega
      simp [h,hsub]

theorem or_oneBit (hj : j < 32) :
    (w ||| oneBit bit).getLsbD j = if j = bit.toNat then true else w.getLsbD j := by
  rw [BitVec.getLsbD_or,oneBit_getLsbD hj]
  by_cases h : j = bit.toNat <;> simp [h]

theorem andNot_oneBit (hj : j < 32) :
    (w &&& ~~~oneBit bit).getLsbD j = if j = bit.toNat then false else w.getLsbD j := by
  rw [BitVec.getLsbD_and,BitVec.getLsbD_not,oneBit_getLsbD hj]
  by_cases h : j = bit.toNat <;> simp [h,hj]

theorem setGroup_getLsbD (hj : j < 32) : (setGroup w bit group).getLsbD j =
    if j = bit.toNat then decide (group ≠ 0) else w.getLsbD j := by
  unfold setGroup
  split
  · rename_i h
    rw [or_oneBit hj,decide_eq_true h]
  · rename_i h
    rw [andNot_oneBit hj,decide_eq_false h]

theorem bit_update {f : Nat → BitVec 32} {k : Nat} {v : Bool}
    (hw : ∀ j < 32, w.getLsbD j = if j = k % 32 then v else (f (k / 32)).getLsbD j) (i : Nat) :
    (Function.update f (k / 32) w (i / 32)).getLsbD (i % 32) =
      if i = k then v else (f (i / 32)).getLsbD (i % 32) := by
  by_cases hword : i / 32 = k / 32
  · rw [hword,Function.update_self,hw _ (Nat.mod_lt _ (by decide))]
    have hsame : i % 32 = k % 32 ↔ i = k := by omega
    simp only [hsame]
  · have hne : i ≠ k := fun h => hword (h ▸ rfl)
    rw [Function.update_of_ne hword,if_neg hne]

end Bits

section Distributor
variable {g : Gicd} {intId : BitVec 32}

theorem interruptIndex_toNat (intId : BitVec 32) :
    (interruptIndex intId).toNat = intId.toNat / 32 :=
  BitVec.toNat_udiv

theorem interruptBitPosition_toNat (intId : BitVec 32) :
    (interruptBitPosition intId).toNat = intId.toNat % 32 :=
  BitVec.toNat_umod

theorem offset_toNat {base : BitVec 32} (hbase : base.toNat < 0x200) (h : intId.toNat < 1020) :
    (base + interruptIndex intId * 4).toNat = base.toNat + intId.toNat / 32 * 4 := by
  have hfour : (4 : BitVec 32).toNat = 4 := rfl
  rw [BitVec.toNat_add,BitVec.toNat_mul,interruptIndex_toNat,hfour]
  omega

theorem decode_igroupr (h : intId.toNat < 1020) :
    GicdReg.decode (gicdIgroupr (interruptIndex intId)) = .igroupr (intId.toNat / 32) := by
  have hbase : (0x0080 : BitVec 32).toNat = 0x80 := rfl
  rw [GicdReg.decode,gicdIgroupr,offset_toNat (by decide) h,hbase]
  rw [if_neg (by omega),if_pos (by omega),Nat.add_sub_cancel_left,Nat.mul_div_cancel _ (by decide)]

theorem decode_isenabler (h : intId.toNat < 1020) :
    GicdReg.decode (gicdIsenabler (interruptIndex intId)) = .isenabler (intId.toNat / 32) := by
  have hbase : (0x0100 : BitVec 32).toNat = 0x100 := rfl
  rw [GicdReg.decode,gicdIsenabler,offset_toNat (by decide) h,hbase]
  rw [if_neg (by omega),if_neg (by omega),if_pos (by omega),Nat.add_sub_cancel_left,
    Nat.mul_div_cancel _ (by decide)]

theorem decode_icenabler (h : intId.toNat < 1020) :
    GicdReg.decode (gicdIcenabler (interruptIndex intId)) = .icenabler (intId.toNat / 32) := by
  have hbase : (0x0180 : BitVec 32).toNat = 0x180 := rfl
  rw [GicdReg.decode,gicdIcenabler,offset_toNat (by decide) h,hbase]
  rw [if_neg (by omega),if_neg (by omega),if_neg (by omega),if_pos (by omega),
    Nat.add_sub_cancel_left,Nat.mul_div_cancel _ (by decide)]

variable {k : Nat}

theorem settings_priority (h : intId.toNat < 1020) (val : BitVec 8) :
    (g.write8 (gicdIpriorityr intId) val).settings k =
      if k = intId.toNat then { g.settings k with priority := val } else g.settings k := by
  have hbase : (0x0400 : BitVec 32).toNat = 0x400 := rfl
  have haddr : (gicdIpriorityr intId).toNat = 0x400 + intId.toNat := by
    rw [gicdIpriorityr,BitVec.toNat_add,hbase]
    omega
  rw [Gicd.write8,haddr,if_pos (by omega),Nat.add_sub_cancel_left,Gicd.settings,Gicd.settings]
  dsimp only
  by_cases hk : k = intId.toNat
  · rw [if_pos hk,hk,Function.update_self]
  · rw [if_neg hk,Function.update_of_ne hk]

theorem settings_group (h : intId.toNat < 1020) (group : BitVec 32) :
    (g.write (gicdIgroupr (interruptIndex intId))
      (setGroup (g.read (gicdIgroupr (interruptIndex intId))) (interruptBitPosition intId)
        group)).settings k =
      if k = intId.toNat then { g.settings k with group := decide (group ≠ 0) }
      else g.settings k := by
  have hbits := @bit_update
    (setGroup (g.igroupr (intId.toNat / 32)) (interruptBitPosition intId) group) g.igroupr
    intId.toNat (decide (group ≠ 0))
    (fun j hj => by rw [setGroup_getLsbD hj,interruptBitPosition_toNat]) k
  rw [Gicd.write,Gicd.read,decode_igroupr h,Gicd.settings,Gicd.settings]
  dsimp only
  rw [hbits]
  split <;> rfl

theorem settings_enabled {w : BitVec 32} {v : Bool} (hw : ∀ j < 32, w.getLsbD j =
    if j = (interruptBitPosition intId).toNat then v
    else (g.enabled (intId.toNat / 32)).getLsbD j) :
    Gicd.settings { g with enabled := Function.update g.enabled (intId.toNat / 32) w } k =
      if k = intId.toNat then { g.settings k with enabled := v } else g.settings k := by
  rw [interruptBitPosition_toNat] at hw
  rw [Gicd.settings,Gicd.settings]
  dsimp only
  rw [bit_update hw k]
  split <;> rfl

theorem settings_enable (h : intId.toNat < 1020) :
    (g.write (gicdIsenabler (interruptIndex intId)) (oneBit (interruptBitPosition intId))).settings
      k = if k = intId.toNat then { g.settings k with enabled := true } else g.settings k := by
  rw [Gicd.write,decode_isenabler h]
  exact settings_enabled fun j hj => or_oneBit hj

theorem settings_disable (h : intId.toNat < 1020) :
    (g.write (gicdIcenabler (interruptIndex intId)) (oneBit (interruptBitPosition intId))).settings
      k = if k = intId.toNat then { g.settings k with enabled := false } else g.settings k := by
  rw [Gicd.write,decode_icenabler h]
  exact settings_enabled fun j hj => andNot_oneBit hj

theorem gicEl3ConfSpi_settings (h : intId.toNat < 1020) (priority : BitVec 8) (group : BitVec 32) :
    (gicEl3ConfSpi intId priority group g).settings k =
      if k = intId.toNat then ⟨decide (group ≠ 0),(g.settings k).enabled,priority⟩
      else g.settings k := by
  rw [gicEl3ConfSpi,settings_priority h,settings_group h]
  split <;> rfl

theorem gicConfSpi_settings (h : intId.toNat < 1020) (priority : BitVec 8) (group : BitVec 32) :
    (gicConfSpi intId priority group g).settings k =
      if k = intId.toNat then ⟨decide (group ≠ 0),true,priority⟩ else g.settings k := by
  rw [gicConfSpi,settings_priority h,settings_enable h,settings_group h]
  split <;> rfl

theorem spi_only {g' : Gicd} {new : Settings} (hk : 32 ≤ k)
    (h : g'.settings k = if k = intId.toNat then new else g.settings k) :
    (if intId < 32 then g else g').settings k =
      if k = intId.toNat then new else g.settings k := by
  split
  · rename_i hlow
    have hlow' : intId.toNat < 32 := hlow
    rw [if_neg (by omega)]
  · exact h

theorem gicEnableSpi_settings (h : intId.toNat < 1020) (hk : 32 ≤ k) :
    (gicEnableSpi intId g).settings k =
      if k = intId.toNat then { g.settings k with enabled := true } else g.settings k :=
  spi_only hk (settings_enable h)

theorem gicDisableSpi_settings (h : intId.toNat < 1020) (hk : 32 ≤ k) :
    (gicDisableSpi intId g).settings k =
      if k = intId.toNat then { g.settings k with enabled := false } else g.settings k :=
  spi_only hk (settings_disable h)

end Distributor

section Redistributor
variable {r : Gicr} {intId : BitVec 32} {k : Nat}

theorem write_igroupr0 (r : Gicr) (val : BitVec 32) :
    r.write gicrIgroupr0 val = { r with igroupr0 := val } := if_pos rfl

theorem write_isenabler0 (r : Gicr) (val : BitVec 32) :
    r.write gicrIsenabler0 val = { r with enabled0 := r.enabled0 ||| val } := by
  rw [Gicr.write,if_neg (by decide),if_pos rfl]

theorem write_nsacr0 (r : Gicr) (val : BitVec 32) :
    r.write gicrNsacr0 val = { r with nsacr0 := val } := by
  rw [Gicr.write,if_neg (by decide),if_neg (by decide),if_pos rfl]

theorem write8_redist (r : Gicr) (h : intId.toNat < 32) (val : BitVec 8) :
    r.write8 (gicrIpriorityr intId) val =
      { r with ipriorityr := Function.update r.ipriorityr intId.toNat val } := by
  have hbase : (gicrSgiOffset + 0x0400).toNat = 0x10400 := rfl
  have haddr : (gicrIpriorityr intId).toNat = 0x10400 + intId.toNat := by
    rw [gicrIpriorityr,BitVec.toNat_add,hbase]
    omega
  rw [Gicr.write8,haddr,if_pos (by omega),Nat.add_sub_cancel_left]

theorem confRedist_eq (h : intId.toNat < 32) (priority : BitVec 8) (group : BitVec 32) :
    confRedist intId priority group r = { r with
      igroupr0 := setGroup r.igroupr0 intId group
      enabled0 := r.enabled0 ||| oneBit intId
      ipriorityr := Function.update r.ipriorityr intId.toNat priority } := by
  rw [confRedist,write8_redist _ h,write_isenabler0,write_igroupr0]
  rfl

theorem confRedist_settings (h : intId.toNat < 32) (hk : k < 32) (priority : BitVec 8)
    (group : BitVec 32) : (confRedist intId priority group r).settings k =
      if k = intId.toNat then ⟨decide (group ≠ 0),true,priority⟩ else r.settings k := by
  rw [confRedist_eq h,Gicr.settings,Gicr.settings]
  dsimp only
  rw [setGroup_getLsbD hk,or_oneBit hk]
  by_cases heq : k = intId.toNat
  · rw [if_pos heq,if_pos heq,if_pos heq,heq,Function.update_self]
  · rw [if_neg heq,if_neg heq,if_neg heq,Function.update_of_ne heq]

end Redistributor

section Calls
variable {g : Gic} {c : Call} {i : Interrupt}

def Call.on (c : Call) (old : Settings) : Settings :=
  ⟨c.group?.getD old.group,c.enabled?.getD old.enabled,c.priority?.getD old.priority⟩

theorem onGicd_settings {intId : BitVec 32} {new : Settings → Settings} {f : Gicd → Gicd}
    (hf : ∀ d k, 32 ≤ k → (f d).settings k =
      if k = intId.toNat then new (d.settings k) else d.settings k) (hi : i.Valid) :
    Gic.settings { g with gicd := f g.gicd } i =
      if .shared intId = i then new (g.settings i) else g.settings i := by
  cases i with
  | shared id =>
    have hsame : id.toNat = intId.toNat ↔ Interrupt.shared intId = .shared id := by
      rw [Interrupt.shared.injEq,BitVec.toNat_inj,eq_comm]
    simp only [Gic.settings,hf _ _ hi.1,hsame]
  | ofCore core id =>
    have hne : Interrupt.shared intId ≠ .ofCore core id := nofun
    rw [if_neg hne]
    rfl

theorem onGicr_settings {core : Nat} {intId : BitVec 32} {new : Settings → Settings}
    {f : Gicr → Gicr} (hf : ∀ r k, k < 32 → (f r).settings k =
      if k = intId.toNat then new (r.settings k) else r.settings k) (hi : i.Valid) :
    (g.onGicr core f).settings i =
      if .ofCore core intId = i then new (g.settings i) else g.settings i := by
  cases i with
  | shared id =>
    have hne : Interrupt.ofCore core intId ≠ .shared id := nofun
    rw [if_neg hne]
    rfl
  | ofCore core' id =>
    by_cases hcore : core' = core
    · subst hcore
      have hsame : id.toNat = intId.toNat ↔ Interrupt.ofCore core' intId = .ofCore core' id := by
        rw [Interrupt.ofCore.injEq,BitVec.toNat_inj,eq_comm]
        exact (and_iff_right rfl).symm
      simp only [Gic.settings,Gic.onGicr,Function.update_self,hf _ _ hi,hsame]
    · have hne : Interrupt.ofCore core intId ≠ .ofCore core' id :=
        fun h => hcore (Interrupt.ofCore.inj h).1.symm
      rw [if_neg hne]
      simp only [Gic.settings,Gic.onGicr,Function.update_of_ne hcore]

/-- A call changes the settings of the interrupt it names, and no others. -/
theorem call_settings (hc : c.Valid) (hi : i.Valid) : (g.call c).settings i =
    if c.interrupt = i then c.on (g.settings i) else g.settings i := by
  cases c with
  | el3ConfSpi intId priority group =>
    exact onGicd_settings (fun d k _ => gicEl3ConfSpi_settings hc.2 priority group) hi
  | el3ConfSgi core intId priority group =>
    have hc' : intId.toNat < 16 := hc
    have hguard : ¬ 15 < intId := Nat.not_lt.mpr (Nat.le_of_lt_succ hc')
    refine onGicr_settings (fun r k hk => ?_) hi
    rw [gicEl3ConfSgi,if_neg hguard]
    exact confRedist_settings (by omega) hk priority group
  | el3ConfPpi core intId priority group =>
    have hlow : ¬ intId < 16 := Nat.not_lt.mpr hc.1
    have hhigh : ¬ 31 < intId := Nat.not_lt.mpr (Nat.le_of_lt_succ hc.2)
    refine onGicr_settings (fun r k hk => ?_) hi
    rw [gicEl3ConfPpi,if_neg (not_or.mpr ⟨hlow,hhigh⟩)]
    exact confRedist_settings hc.2 hk priority group
  | el3UnlockSgi core intId =>
    refine @onGicr_settings g i core intId (fun old => old) (gicEl3UnlockSgi intId)
      (fun r k hk => ?_) hi
    rw [ite_self,gicEl3UnlockSgi]
    split
    · rfl
    · rw [write_nsacr0]
      rfl
  | confSpi intId priority group =>
    exact onGicd_settings (fun d k _ => gicConfSpi_settings hc.2 priority group) hi
  | enableSpi intId => exact onGicd_settings (fun d k hk => gicEnableSpi_settings hc hk) hi
  | disableSpi intId => exact onGicd_settings (fun d k hk => gicDisableSpi_settings hc hk) hi

variable {cs : List Call}

theorem run_settings {υ : Type} (hcs : ∀ c ∈ cs, c.Valid) (hi : i.Valid) (part : Settings → υ)
    (field? : Call → Option υ)
    (hpart : ∀ c old, part (Call.on c old) = (field? c).getD (part old)) :
    part ((exec Gic.call g cs).settings i) =
      (last (gives field? i) cs).getD (part (g.settings i)) := by
  refine @exec_last _ _ _ (gives field? i) cs Gic.call (fun _ c => c.Valid)
    (fun g => part (g.settings i)) ?_ g (along_of_mem _ g hcs)
  intro g c hc
  rw [call_settings hc hi,gives]
  split
  · exact hpart c _
  · rfl

def unlocks (core : Nat) : Call → Option (BitVec 32)
  | .el3UnlockSgi core' intId => if core' = core then some intId else none
  | _ => none

/-- `bitmask` -/
def nsacrMask (intId : BitVec 32) : BitVec 32 := (2 : BitVec 32) <<< (intId * 2).toNat

theorem unlocks_eq_some {core : Nat} {intId : BitVec 32} (h : unlocks core c = some intId) :
    c = .el3UnlockSgi core intId := by
  cases c with
  | el3UnlockSgi core' id =>
    obtain ⟨rfl,rfl⟩ : core' = core ∧ id = intId := by
      rw [unlocks] at h
      split at h
      · rename_i hcore
        exact ⟨hcore,Option.some.inj h⟩
      · cases h
    rfl
  | _ => cases h

theorem onGicr_nsacr0 {f : Gicr → Gicr} (hf : ∀ r, (f r).nsacr0 = r.nsacr0) (core core' : Nat) :
    ((g.onGicr core' f).gicr core).nsacr0 = (g.gicr core).nsacr0 := by
  by_cases hcore : core = core'
  · subst hcore
    simp only [Gic.onGicr,Function.update_self,hf]
  · simp only [Gic.onGicr,Function.update_of_ne hcore]

theorem confRedist_nsacr0 {intId : BitVec 32} (h : intId.toNat < 32) (priority : BitVec 8)
    (group : BitVec 32) (r : Gicr) : (confRedist intId priority group r).nsacr0 = r.nsacr0 := by
  rw [confRedist_eq h]

/-- NSACR is written as a whole, with one SGI unlocked. -/
theorem call_nsacr0 (hc : c.Valid) (core : Nat) : ((g.call c).gicr core).nsacr0 =
    ((unlocks core c).map nsacrMask).getD (g.gicr core).nsacr0 := by
  cases c with
  | el3ConfSpi _ _ _ | confSpi _ _ _ | enableSpi _ | disableSpi _ => rfl
  | el3ConfSgi core' intId priority group =>
    refine onGicr_nsacr0 (fun r => ?_) core core'
    unfold gicEl3ConfSgi
    split
    · rfl
    · exact confRedist_nsacr0 (Nat.lt_trans hc (by decide)) priority group r
  | el3ConfPpi core' intId priority group =>
    refine onGicr_nsacr0 (fun r => ?_) core core'
    unfold gicEl3ConfPpi
    split
    · rfl
    · exact confRedist_nsacr0 hc.2 priority group r
  | el3UnlockSgi core' intId =>
    have hc' : intId.toNat < 16 := hc
    have hguard : ¬ 15 < intId := Nat.not_lt.mpr (Nat.le_of_lt_succ hc')
    rw [Gic.call,Gic.onGicr,unlocks]
    dsimp only
    by_cases hcore : core' = core
    · subst hcore
      rw [Function.update_self,gicEl3UnlockSgi,if_neg hguard,write_nsacr0,if_pos rfl]
      rfl
    · rw [Function.update_of_ne (Ne.symm hcore),if_neg hcore]
      rfl

theorem access_mask {id other : BitVec 32} (hid : id.toNat < 16) (hother : other.toNat < 16) :
    (nsacrMask id).extractLsb' (2 * other.toNat) 2 = if other = id then 2 else 0 := by
  have hall : ∀ a < 16, ∀ b < 16, ((2 : BitVec 32) <<< (a * 2)).extractLsb' (2 * b) 2 =
      if b = a then 2 else 0 := by decide
  have hmul : (id * 2).toNat = id.toNat * 2 := by
    have htwo : (2 : BitVec 32).toNat = 2 := rfl
    rw [BitVec.toNat_mul,htwo]
    omega
  rw [nsacrMask,hmul,hall _ hid _ hother]
  simp only [BitVec.toNat_inj]

theorem run_nsacr0 (hcs : ∀ c ∈ cs, c.Valid) (core : Nat) :
    ((exec Gic.call g cs).gicr core).nsacr0 =
      ((last (unlocks core) cs).map nsacrMask).getD (g.gicr core).nsacr0 := by
  rw [← last_map]
  exact @exec_last _ _ _ _ cs Gic.call (fun _ c => c.Valid) (fun g => (g.gicr core).nsacr0)
    (fun g c hc => call_nsacr0 hc core) g (along_of_mem _ g hcs)

theorem run_unlocked (hcs : ∀ c ∈ cs, c.Valid) {core : Nat} {id : BitVec 32}
    (hlast : last (unlocks core) cs = some id) {other : BitVec 32} (hother : other.toNat < 16) :
    .el3UnlockSgi core id ∈ cs ∧
      ((exec Gic.call g cs).gicr core).access other = if other = id then 2 else 0 := by
  obtain ⟨c,hc,hid⟩ := exists_of_last hlast
  obtain rfl := unlocks_eq_some hid
  have hid' : id.toNat < 16 := hcs _ hc
  refine ⟨hc,?_⟩
  rw [Gicr.access,run_nsacr0 hcs,hlast]
  exact access_mask hid' hother

theorem not_unlocked {core : Nat} (hlast : last (unlocks core) cs = none) (id : BitVec 32) :
    .el3UnlockSgi core id ∉ cs := by
  intro hmem
  have hnone := last_eq_none_iff.mp hlast _ hmem
  rw [unlocks,if_pos rfl] at hnone
  cases hnone

theorem run_locked (hcs : ∀ c ∈ cs, c.Valid) {core : Nat} (hlast : last (unlocks core) cs = none)
    (other : BitVec 32) :
    ((exec Gic.call g cs).gicr core).access other = (g.gicr core).access other := by
  rw [Gicr.access,Gicr.access,run_nsacr0 hcs,hlast]
  rfl

theorem last_access_some {core : Nat} {id : BitVec 32} (h : .el3UnlockSgi core id ∈ cs) :
    last (gives Call.access? (.ofCore core id)) cs = some 2 := by
  cases hlast : last (gives Call.access? (.ofCore core id)) cs with
  | none =>
    have hnone := last_eq_none_iff.mp hlast _ h
    rw [gives,Call.interrupt,if_pos rfl] at hnone
    cases hnone
  | some v =>
    obtain ⟨c,-,hv⟩ := exists_of_last hlast
    rw [gives] at hv
    split at hv
    · cases c with
      | el3UnlockSgi core' id' => exact hv.symm
      | _ => cases hv
    · cases hv

theorem last_access_none {core : Nat} {id : BitVec 32} (h : .el3UnlockSgi core id ∉ cs) :
    last (gives Call.access? (.ofCore core id)) cs = none := by
  refine last_eq_none_iff.mpr fun c hc => ?_
  rw [gives]
  split
  · rename_i hnames
    cases c with
    | el3UnlockSgi core' id' =>
      obtain ⟨rfl,rfl⟩ := Interrupt.ofCore.inj hnames
      exact absurd hc h
    | _ => rfl
  · rfl

end Calls

/-- The calls are independent for each interrupt, but for gic_el3_unlock_sgi: the whole of NSACR
is written, and the SGIs of the core that were open before are closed. -/
theorem configuration_independent_iff (g₀ : Gic) (cs : List Call) (hcs : ∀ c ∈ cs, c.Valid) :
    Independent g₀ (exec Gic.call g₀ cs) cs ↔ OneUnlocked g₀ cs := by
  constructor
  · intro h core id hmem other hother hne
    have hid : id.toNat < 16 := hcs _ hmem
    cases hlast : last (unlocks core) cs with
    | none => exact absurd hmem (not_unlocked hlast id)
    | some k =>
      -- the SGI that was unlocked last is open, so no other one is, and `id` is that one
      have hopen : ∀ j : BitVec 32, j.toNat < 16 → .el3UnlockSgi core j ∈ cs → j = k := by
        intro j hj hjmem
        have haccess := h.access core j hj
        rw [last_access_some hjmem,(run_unlocked hcs hlast hj).2,Option.getD_some] at haccess
        by_contra hjk
        rw [if_neg hjk] at haccess
        exact absurd haccess (by decide)
      obtain rfl := hopen id hid hmem
      have hclosed : .el3UnlockSgi core other ∉ cs := fun hm => hne (hopen other hother hm)
      have haccess := h.access core other hother
      rw [last_access_none hclosed,(run_unlocked hcs hlast hother).2,if_neg hne] at haccess
      exact ⟨hclosed,haccess.symm⟩
  · intro h
    refine ⟨fun i hi => run_settings hcs hi Settings.group _ fun _ _ => rfl,
      fun i hi => run_settings hcs hi Settings.enabled _ fun _ _ => rfl,
      fun i hi => run_settings hcs hi Settings.priority _ fun _ _ => rfl,fun core id hid => ?_⟩
    cases hlast : last (unlocks core) cs with
    | none =>
      rw [run_locked hcs hlast,last_access_none (not_unlocked hlast id)]
      rfl
    | some k =>
      obtain ⟨hmem,haccess⟩ := @run_unlocked g₀ cs hcs core k hlast id hid
      rw [haccess]
      by_cases hk : id = k
      · subst hk
        rw [if_pos rfl,last_access_some hmem]
        rfl
      · obtain ⟨hclosed,hzero⟩ := h core k hmem id hid hk
        rw [if_neg hk,last_access_none hclosed,hzero]
        rfl

def zeroGic : Gic :=
  ⟨⟨fun _ => 0,fun _ => 0,fun _ => 0,fun _ => 0⟩,fun _ => ⟨0,0,fun _ => 0,0⟩⟩

def bootCalls : List Call :=
  [.el3ConfSpi 48 0xA0 1,.el3ConfSgi 0 8 0xF0 1,.el3UnlockSgi 0 8,.el3ConfPpi 0 30 0 1,
    .confSpi 48 0x80 1,.enableSpi 48,.disableSpi 49]

theorem configuration_independent_boot :
    Independent zeroGic (exec Gic.call zeroGic bootCalls) bootCalls := by
  refine (configuration_independent_iff zeroGic bootCalls ?_).mpr ?_
  · simp [bootCalls,Call.Valid]
  · intro core id hmem other hother hne
    simp only [bootCalls,List.mem_cons,reduceCtorEq,Call.el3UnlockSgi.injEq,List.not_mem_nil,
      false_or,or_false] at hmem ⊢
    exact ⟨fun h => hne (h.2.trans hmem.2.symm),by simp [Gicr.access,zeroGic]⟩

/-- A second SGI is unlocked, and the first one is closed. -/
theorem second_unlock_closes :
    ¬ Independent zeroGic (exec Gic.call zeroGic [.el3UnlockSgi 0 8,.el3UnlockSgi 0 9])
        [.el3UnlockSgi 0 8,.el3UnlockSgi 0 9] := by
  intro h
  exact absurd (h.access 0 8 (by decide)) (by decide)

end Arm64.GicConfig

import Arm64Baremetal.LastSet

set_option autoImplicit false

namespace Arm64.Its
open Runs LastSet

abbrev LpiByte := BitVec 8

def lpiPropTableSize : Nat := 16384

structure LpiCall where
  interruptId : BitVec 32
  priority : BitVec 8
  enabled : BitVec 8
  deriving DecidableEq

/-- The variable `en`. -/
def enableBit (enabled : BitVec 8) : LpiByte :=
  let en : LpiByte := 0
  if enabled ≠ 0 then en ||| (1 : LpiByte) <<< 0 else en &&& ~~~((1 : LpiByte) <<< 0)

/-- The store of the call: an offset from lpi_prop_table, and a byte. -/
def gicItsConfigureLpi (c : LpiCall) : Option (Nat × LpiByte) :=
  if c.interruptId < 8192 then none
  else
    let index := c.interruptId - 8192
    some (index.toNat,c.priority ||| enableBit c.enabled)

def lpiStep (m : Nat → LpiByte) (c : LpiCall) : Nat → LpiByte :=
  match gicItsConfigureLpi c with
  | none => m
  | some (i,b) => Function.update m i b

def lastLpi (cs : List LpiCall) (id : BitVec 32) : Option LpiCall :=
  last (fun c => if c.interruptId = id then some c else none) cs

def HasEntry (id : BitVec 32) : Prop := 8192 ≤ id.toNat ∧ id.toNat < 8192 + lpiPropTableSize

def lpiEntry (m : Nat → LpiByte) (id : BitVec 32) : LpiByte := m (id.toNat - 8192)

/-- `m` holds the configuration that the calls asked for, from `m₀` on. -/
structure LpiExact (m₀ m : Nat → LpiByte) (cs : List LpiCall) : Prop where
  inside : ∀ c ∈ cs, ∀ p ∈ gicItsConfigureLpi c, p.1 < lpiPropTableSize
  enabled : ∀ id c, HasEntry id → lastLpi cs id = some c →
    ((lpiEntry m id).getLsbD 0 = true ↔ c.enabled ≠ 0)
  priority : ∀ id c, HasEntry id → lastLpi cs id = some c → lpiEntry m id >>> 2 = c.priority >>> 2
  unnamed : ∀ id, HasEntry id → lastLpi cs id = none → lpiEntry m id = lpiEntry m₀ id
  others : ∀ c ∈ cs, ¬ HasEntry c.interruptId → gicItsConfigureLpi c = none

section Bits

theorem enableBit_getLsbD (enabled : BitVec 8) :
    (enableBit enabled).getLsbD 0 = true ↔ enabled ≠ 0 := by
  unfold enableBit
  by_cases h : enabled ≠ 0
  · rw [if_pos h]
    exact ⟨fun _ => h,fun _ => rfl⟩
  · rw [if_neg h]
    exact ⟨fun hbit => absurd hbit (by decide),fun h' => absurd h' h⟩

theorem enableBit_high (enabled : BitVec 8) : enableBit enabled >>> 2 = 0#8 := by
  unfold enableBit
  split <;> rfl

/-- The enable bit comes out as asked, unless the priority brings one. -/
theorem entry_enabled (c : LpiCall) :
    ((c.priority ||| enableBit c.enabled).getLsbD 0 = true ↔ c.enabled ≠ 0) ↔
      (c.enabled = 0 → c.priority.getLsbD 0 = false) := by
  rw [BitVec.getLsbD_or,Bool.or_eq_true,enableBit_getLsbD]
  by_cases h : c.enabled = 0
  · simp only [h,ne_eq,not_true_eq_false,or_false,iff_false,Bool.not_eq_true,true_imp_iff]
  · simp only [h,ne_eq,not_false_eq_true,or_true,false_imp_iff]

theorem entry_priority (c : LpiCall) :
    (c.priority ||| enableBit c.enabled) >>> 2 = c.priority >>> 2 := by
  rw [BitVec.ushiftRight_or_distrib,enableBit_high,BitVec.or_zero]

end Bits

section Entry
variable {c : LpiCall} {id : BitVec 32}

theorem configureLpi_low (h : c.interruptId.toNat < 8192) : gicItsConfigureLpi c = none :=
  if_pos (show c.interruptId < 8192 from h)

theorem configureLpi_high (h : 8192 ≤ c.interruptId.toNat) :
    gicItsConfigureLpi c =
      some (c.interruptId.toNat - 8192,c.priority ||| enableBit c.enabled) := by
  have hlt : ¬ c.interruptId < 8192 := Nat.not_lt.mpr h
  have hsub : (c.interruptId - 8192).toNat = c.interruptId.toNat - 8192 :=
    BitVec.toNat_sub_of_le h
  simp only [gicItsConfigureLpi,if_neg hlt,hsub]

theorem lpiStep_entry (h : HasEntry id) (m : Nat → LpiByte) (c : LpiCall) :
    lpiEntry (lpiStep m c) id = ((if c.interruptId = id then some c else none).map fun c =>
      c.priority ||| enableBit c.enabled).getD (lpiEntry m id) := by
  unfold lpiStep lpiEntry
  by_cases hid : c.interruptId = id
  · subst hid
    rw [configureLpi_high h.1,if_pos rfl]
    exact Function.update_self _ _ _
  · rw [if_neg hid]
    rcases Nat.lt_or_ge c.interruptId.toNat 8192 with hlow | hhigh
    · rw [configureLpi_low hlow]
      rfl
    · have hne : id.toNat - 8192 ≠ c.interruptId.toNat - 8192 := by
        have := h.1
        exact fun heq => hid (BitVec.eq_of_toNat_eq (by omega))
      rw [configureLpi_high hhigh]
      exact Function.update_of_ne hne _ m

theorem exec_lpiEntry (h : HasEntry id) (m : Nat → LpiByte) (cs : List LpiCall) :
    lpiEntry (exec lpiStep m cs) id = ((lastLpi cs id).map fun c =>
      c.priority ||| enableBit c.enabled).getD (lpiEntry m id) := by
  rw [lastLpi,← last_map]
  exact @exec_last _ _ _ _ cs lpiStep (fun _ _ => True) (fun m => lpiEntry m id)
    (fun m c _ => lpiStep_entry h m c) m (along_true lpiStep m cs)

theorem lpiEntry_last (h : HasEntry id) (m : Nat → LpiByte) {cs : List LpiCall}
    (hlast : lastLpi cs id = some c) :
    lpiEntry (exec lpiStep m cs) id = c.priority ||| enableBit c.enabled := by
  rw [exec_lpiEntry h m cs,hlast]
  rfl

theorem mem_of_lastLpi {cs : List LpiCall} (hlast : lastLpi cs id = some c) :
    c ∈ cs ∧ c.interruptId = id := by
  obtain ⟨c',hc,heq⟩ := exists_of_last hlast
  split at heq
  next hid => exact Option.some.inj heq ▸ ⟨hc,hid⟩
  · cases heq

/-- Only the lower end of the range is checked. -/
theorem configureLpi_inside (c : LpiCall) :
    (∀ p ∈ gicItsConfigureLpi c, p.1 < lpiPropTableSize) ↔
      c.interruptId.toNat < 8192 + lpiPropTableSize := by
  rcases Nat.lt_or_ge c.interruptId.toNat 8192 with hlow | hhigh
  · rw [configureLpi_low hlow]
    exact iff_of_true nofun (Nat.lt_add_right _ hlow)
  · rw [configureLpi_high hhigh]
    simp only [Option.mem_def,Option.some.injEq,forall_eq']
    omega

end Entry

/-- The calls leave the table as asked exactly when each interrupt has an entry, or is below the
first one, and the last call that disables an interrupt has a priority without bit 0. -/
theorem lpi_exact_iff (m : Nat → LpiByte) (cs : List LpiCall) :
    LpiExact m (exec lpiStep m cs) cs ↔
      (∀ c ∈ cs, c.interruptId.toNat < 8192 + lpiPropTableSize) ∧
        ∀ id c, 8192 ≤ id.toNat → lastLpi cs id = some c → c.enabled = 0 →
          c.priority.getLsbD 0 = false := by
  constructor
  · intro h
    have hids : ∀ c ∈ cs, c.interruptId.toNat < 8192 + lpiPropTableSize :=
      fun c hc => (configureLpi_inside c).mp (h.inside c hc)
    refine ⟨hids,fun id c hid hlast => ?_⟩
    obtain ⟨hc,rfl⟩ := mem_of_lastLpi hlast
    have henabled := h.enabled _ c ⟨hid,hids c hc⟩ hlast
    rw [lpiEntry_last ⟨hid,hids c hc⟩ m hlast] at henabled
    exact (entry_enabled c).mp henabled
  · rintro ⟨hids,hlast⟩
    refine ⟨fun c hc => (configureLpi_inside c).mpr (hids c hc),fun id c h hc => ?_,
      fun id c h hc => ?_,fun id h hc => ?_,fun c hc h => ?_⟩
    · rw [lpiEntry_last h m hc]
      exact (entry_enabled c).mpr (hlast id c h.1 hc)
    · rw [lpiEntry_last h m hc]
      exact entry_priority c
    · rw [exec_lpiEntry h m cs,hc]
      rfl
    · exact configureLpi_low (Nat.lt_of_not_le fun hle => h ⟨hle,hids c hc⟩)

/-- LPI 8192 is disabled with priority 0xA1, and stays enabled; the last interrupt number is
stored far behind the table. -/
theorem lpi_not_exact :
    ¬ LpiExact (fun _ => 0) (exec lpiStep (fun _ => 0) [⟨8192,0xA1,0⟩]) [⟨8192,0xA1,0⟩] ∧
      gicItsConfigureLpi ⟨0xFFFFFFFF,0xA0,1⟩ = some (0xFFFFDFFF,0xA1) := by
  refine ⟨fun h => ?_,by decide⟩
  have hentry : HasEntry 8192 := ⟨by decide,by decide⟩
  exact (h.enabled 8192 ⟨8192,0xA1,0⟩ hentry (by decide)).mp (by decide) rfl

end Arm64.Its

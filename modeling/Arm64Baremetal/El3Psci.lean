import Arm64Baremetal.El3Monitor

/-!
The target core of PSCI_CPU_ON and PSCI_CPU_OFF: an index into cpus[], which C code can
follow past the end of the array, and a shift that builds ICC_SGI0R_EL1.
-/

set_option autoImplicit false

namespace Arm64

/-- cpus[] as C code indexes it, with whatever lies after it, and the device writes. -/
structure CpuArray where
  cpus : Nat → CpuState
  io : List Io

def sgi0Value (targetCore sgiId : BitVec 8) : Word :=
  let targetList : Word := if targetCore = 0xFF then 1 <<< 40 else 1 <<< (targetCore.toNat % 64)
  targetList ||| (sgiId.setWidth 64 <<< 24)

namespace CpuArray

def sendSgi0ToCore (targetCore sgiId : BitVec 8) (s : CpuArray) : CpuArray :=
  { s with io := .sgi0r (sgi0Value targetCore sgiId) :: s.io }

def psciFnCpuOn (targetCore : BitVec 32) (entryPoint : Word) (s : CpuArray) :
    BitVec 32 × CpuArray :=
  let i := targetCore.toNat
  if maxCpus ≤ i then (psciErrInvalidCpu,s)
  else if entryPoint = 0 ∨ entryPoint &&& 0x3 ≠ 0 then (psciErrBaddress,s)
  else if (s.cpus i).state = .on then (psciErrAlreadyOnline,s)
  else if (s.cpus i).state = .booting then (psciErrCoreBooting,s)
  else
    let c := { s.cpus i with entryPoint := entryPoint, state := .booting, contextId := 0 }
    let s := { s with cpus := Function.update s.cpus i c }
    (psciSuccess,sendSgi0ToCore (targetCore.setWidth 8) sgiCoreWake s)

def psciFnCpuOff (targetCore : BitVec 32) (s : CpuArray) : BitVec 32 × CpuArray :=
  if (s.cpus targetCore.toNat).state = .off then (psciErrNotSupported,s)
  else (psciSuccess,sendSgi0ToCore (targetCore.setWidth 8) sgiCoreSleep s)

end CpuArray

/-- The array of a monitor, followed by the states that the image has there. -/
def Monitor.array (img : Image) (m : Monitor) : CpuArray where
  cpus i :=
    if h : i < maxCpus then m.cpus ⟨i,h⟩
    else
      { state := img.stateBeyond (BitVec.ofNat 32 i)
        entryPoint := 0
        contextId := 0
        nsContext := .zero
        sContext := .zero }
  io := m.io

section Array

variable (img : Image) (m : Monitor)

theorem array_cpus {i : Nat} (h : i < maxCpus) : (m.array img).cpus i = m.cpus ⟨i,h⟩ := dif_pos h

theorem array_setCpu {i : Nat} (h : i < maxCpus) (c : CpuState) :
    (m.setCpu ⟨i,h⟩ c).array img =
      { m.array img with cpus := Function.update (m.array img).cpus i c } := by
  simp only [Monitor.array,Monitor.setCpu,CpuArray.mk.injEq,and_true]
  funext j
  by_cases hj : j = i
  · subst hj
    rw [dif_pos h,Function.update_self,Function.update_self]
  · rw [Function.update_of_ne hj]
    by_cases hb : j < maxCpus
    · have hne : (⟨j,hb⟩ : CoreId) ≠ ⟨i,h⟩ := fun he => hj (congrArg Fin.val he)
      rw [dif_pos hb,dif_pos hb,Function.update_of_ne hne]
    · rw [dif_neg hb,dif_neg hb]

theorem psciFnCpuOn_array (t : BitVec 32) (entryPoint : Word) :
    CpuArray.psciFnCpuOn t entryPoint (m.array img) =
      ((psciFnCpuOn t entryPoint m).1,(psciFnCpuOn t entryPoint m).2.array img) := by
  unfold CpuArray.psciFnCpuOn psciFnCpuOn
  dsimp only
  by_cases ht : t.toNat < maxCpus
  · rw [if_neg (Nat.not_le.mpr ht),dif_pos ht,array_cpus img m ht]
    split
    · rfl
    split
    · rfl
    split
    · rfl
    rw [← array_setCpu img m ht]
    rfl
  · rw [if_pos (Nat.not_lt.mp ht),dif_neg ht]

theorem stateOf_array (t : BitVec 32) :
    m.stateOf img t = ((m.array img).cpus t.toNat).state := by
  simp only [Monitor.stateOf,Monitor.array]
  split
  · rfl
  · rw [BitVec.ofNat_toNat,BitVec.setWidth_eq]

theorem psciFnCpuOff_array (t : BitVec 32) :
    CpuArray.psciFnCpuOff t (m.array img) =
      ((psciFnCpuOff img t m).1,(psciFnCpuOff img t m).2.array img) := by
  unfold CpuArray.psciFnCpuOff psciFnCpuOff
  rw [stateOf_array]
  split <;> rfl

omit m in
theorem setResult_array {r : BitVec 32 × Monitor} {a : BitVec 32 × CpuArray}
    (h : a = (r.1,r.2.array img)) : (Monitor.setResult r).array img = a.2 ∧
      (Monitor.setResult r).frame.regs 1 = a.1.signExtend 64 := by
  subst h
  exact ⟨rfl,Function.update_self 1 _ r.2.frame.regs⟩

theorem el3SmcHandler_cpuOn (core : CoreId) :
    let r := CpuArray.psciFnCpuOn ((m.frame.regs 1).setWidth 32) (m.frame.regs 2) (m.array img)
    let m' := el3SmcHandler img core psciCpuOn m
    m'.array img = r.2 ∧ m'.frame.regs 1 = r.1.signExtend 64 :=
  setResult_array img (psciFnCpuOn_array img m _ _)

theorem el3SmcHandler_cpuOff (core : CoreId) :
    let r := CpuArray.psciFnCpuOff ((m.frame.regs 1).setWidth 32) (m.array img)
    let m' := el3SmcHandler img core psciCpuOff m
    m'.array img = r.2 ∧ m'.frame.regs 1 = r.1.signExtend 64 :=
  setResult_array img (psciFnCpuOff_array img m _)

end Array

def sgiTargetList (v : Word) : BitVec 16 := v.extractLsb' 0 16
def sgiAff1 (v : Word) : BitVec 8 := v.extractLsb' 16 8
def sgiIntid (v : Word) : BitVec 4 := v.extractLsb' 24 4
def sgiAff2 (v : Word) : BitVec 8 := v.extractLsb' 32 8
def sgiIrm (v : Word) : Bool := v.getLsbD 40
def sgiRs (v : Word) : BitVec 4 := v.extractLsb' 44 4
def sgiAff3 (v : Word) : BitVec 8 := v.extractLsb' 48 8

/-- The interrupt goes to the core with this id, whose affinity is 0.0.0.id. -/
def SgiNames (v : Word) (core : Nat) : Prop :=
  sgiIrm v = false ∧ sgiAff3 v = 0 ∧ sgiAff2 v = 0 ∧ sgiAff1 v = 0 ∧
    core / 16 = (sgiRs v).toNat ∧ (sgiTargetList v).getLsbD (core % 16) = true

/-- What a PSCI call with target `t` promises in the state `s`. -/
structure TargetChecked (call : CpuArray → BitVec 32 × CpuArray) (t : BitVec 32)
    (sgiId : BitVec 8) (s : CpuArray) : Prop where
  reads : ∀ s' : CpuArray, (∀ i < maxCpus, s'.cpus i = s.cpus i) → s'.io = s.io →
    (call s').1 = (call s).1 ∧ (call s').2.io = (call s).2.io ∧
      ∀ i < maxCpus, (call s').2.cpus i = (call s).2.cpus i
  writes : ∀ i, maxCpus ≤ i → (call s).2.cpus i = s.cpus i
  error : (call s).1 ≠ psciSuccess → (call s).2 = s
  success : (call s).1 = psciSuccess → ∃ v, (call s).2.io = .sgi0r v :: s.io ∧
    (∀ core, SgiNames v core ↔ core = t.toNat) ∧ sgiIntid v = sgiId.setWidth 4 ∧ sgiIrm v = false

theorem sgi0Value_fields : ∀ k < maxCpus, ∀ id ∈ [sgiCoreWake,sgiCoreSleep],
    let v := sgi0Value (BitVec.ofNat 8 k) id
    sgiTargetList v = BitVec.twoPow 16 k ∧ sgiAff1 v = 0 ∧ sgiIntid v = id.setWidth 4 ∧
      sgiAff2 v = 0 ∧ sgiIrm v = false ∧ sgiRs v = 0 ∧ sgiAff3 v = 0 := by
  decide

theorem sgi0Value_names {t : BitVec 32} (ht : t.toNat < maxCpus) {id : BitVec 8}
    (hid : id ∈ [sgiCoreWake,sgiCoreSleep]) :
    let v := sgi0Value (t.setWidth 8) id
    (∀ core, SgiNames v core ↔ core = t.toNat) ∧ sgiIntid v = id.setWidth 4 ∧
      sgiIrm v = false := by
  have h8 : t.setWidth 8 = BitVec.ofNat 8 t.toNat := (BitVec.ofNat_toNat 8 t).symm
  obtain ⟨hlist,h1,hint,h2,hirm,hrs,h3⟩ := sgi0Value_fields t.toNat ht id hid
  rw [← h8] at hlist h1 hint h2 hirm hrs h3
  refine ⟨fun core => ?_,hint,hirm⟩
  simp only [SgiNames,hirm,h1,h2,h3,hrs,hlist,true_and,BitVec.getLsbD_twoPow]
  have hlt : t.toNat < 10 := ht
  have h0 : (0 : BitVec 4).toNat = 0 := rfl
  rw [h0,Bool.and_eq_true,decide_eq_true_eq,decide_eq_true_eq]
  omega

/-- psci_fn_cpu_on fails and leaves everything as it was, or starts a core of the array. -/
theorem psciFnCpuOn_cases (t : BitVec 32) (entryPoint : Word) (s : CpuArray) :
    (∃ r, r ≠ psciSuccess ∧ CpuArray.psciFnCpuOn t entryPoint s = (r,s)) ∨
    (t.toNat < maxCpus ∧ ∃ c, CpuArray.psciFnCpuOn t entryPoint s =
      (psciSuccess,{
        cpus := Function.update s.cpus t.toNat c
        io := .sgi0r (sgi0Value (t.setWidth 8) sgiCoreWake) :: s.io })) := by
  unfold CpuArray.psciFnCpuOn
  dsimp only
  split
  · exact .inl ⟨_,by decide,rfl⟩
  rename_i ht
  split
  · exact .inl ⟨_,by decide,rfl⟩
  split
  · exact .inl ⟨_,by decide,rfl⟩
  split
  · exact .inl ⟨_,by decide,rfl⟩
  exact .inr ⟨Nat.not_le.mp ht,_,rfl⟩

theorem psciFnCpuOn_reads (t : BitVec 32) (entryPoint : Word) {s s' : CpuArray}
    (hs : ∀ i < maxCpus, s'.cpus i = s.cpus i) (hio : s'.io = s.io) :
    let call := CpuArray.psciFnCpuOn t entryPoint
    (call s').1 = (call s).1 ∧ (call s').2.io = (call s).2.io ∧
      ∀ i < maxCpus, (call s').2.cpus i = (call s).2.cpus i := by
  intro call
  simp only [call,CpuArray.psciFnCpuOn]
  split
  · exact ⟨rfl,hio,hs⟩
  rename_i ht
  rw [hs t.toNat (Nat.not_le.mp ht)]
  split
  · exact ⟨rfl,hio,hs⟩
  split
  · exact ⟨rfl,hio,hs⟩
  split
  · exact ⟨rfl,hio,hs⟩
  refine ⟨rfl,congrArg (List.cons _) hio,fun i hi => ?_⟩
  by_cases hit : i = t.toNat
  · subst hit
    simp only [CpuArray.sendSgi0ToCore,Function.update_self]
  · exact (Function.update_of_ne hit _ _).trans
      ((hs i hi).trans (Function.update_of_ne hit _ _).symm)

theorem psciFnCpuOn_checked (t : BitVec 32) (entryPoint : Word) (s : CpuArray) :
    TargetChecked (CpuArray.psciFnCpuOn t entryPoint) t sgiCoreWake s where
  reads s' hs hio := psciFnCpuOn_reads t entryPoint hs hio
  writes i hi := by
    rcases psciFnCpuOn_cases t entryPoint s with ⟨r,_,h⟩ | ⟨ht,c,h⟩
    · rw [h]
    · have hit : i ≠ t.toNat := by omega
      rw [h]
      exact Function.update_of_ne hit _ _
  error hr := by
    rcases psciFnCpuOn_cases t entryPoint s with ⟨r,_,h⟩ | ⟨ht,c,h⟩
    · rw [h]
    · rw [h] at hr
      contradiction
  success hr := by
    rcases psciFnCpuOn_cases t entryPoint s with ⟨r,hne,h⟩ | ⟨ht,c,h⟩
    · rw [h] at hr
      contradiction
    · rw [h]
      exact ⟨_,rfl,sgi0Value_names ht (by simp)⟩

theorem psciFnCpuOff_checked {t : BitVec 32} (ht : t.toNat < maxCpus) (s : CpuArray) :
    TargetChecked (CpuArray.psciFnCpuOff t) t sgiCoreSleep s where
  reads s' hs hio := by
    simp only [CpuArray.psciFnCpuOff,hs t.toNat ht]
    split
    · exact ⟨rfl,hio,hs⟩
    · exact ⟨rfl,congrArg (List.cons _) hio,hs⟩
  writes i hi := by
    unfold CpuArray.psciFnCpuOff
    split <;> rfl
  error hr := by
    unfold CpuArray.psciFnCpuOff at hr ⊢
    split
    · rfl
    · rename_i h
      rw [if_neg h] at hr
      contradiction
  success hr := by
    unfold CpuArray.psciFnCpuOff at hr ⊢
    split
    · rename_i h
      rw [if_pos h] at hr
      exact absurd (show psciErrNotSupported = psciSuccess from hr) (by decide)
    · exact ⟨_,rfl,sgi0Value_names ht (by simp)⟩

/-- A target past the end: the answer depends on what is stored there. -/
theorem psciFnCpuOff_unchecked {t : BitVec 32} (ht : maxCpus ≤ t.toNat) (s : CpuArray) :
    ¬ TargetChecked (CpuArray.psciFnCpuOff t) t sgiCoreSleep s := by
  intro h
  let other (p : PowerState) : CpuArray :=
    { s with cpus := Function.update s.cpus t.toNat { s.cpus t.toNat with state := p } }
  have hs : ∀ p, ∀ i < maxCpus, (other p).cpus i = s.cpus i :=
    fun p i hi => Function.update_of_ne (by omega) _ _
  have hstate : ∀ p, ((other p).cpus t.toNat).state = p := by
    intro p
    simp only [other,Function.update_self]
  have hoff : (CpuArray.psciFnCpuOff t (other .off)).1 = psciErrNotSupported := by
    rw [CpuArray.psciFnCpuOff,if_pos (hstate .off)]
  have hon : (CpuArray.psciFnCpuOff t (other .on)).1 = psciSuccess := by
    rw [CpuArray.psciFnCpuOff,if_neg (by rw [hstate]; decide)]
  have he := (h.reads (other .off) (hs .off) rfl).1.trans (h.reads (other .on) (hs .on) rfl).1.symm
  rw [hoff,hon] at he
  exact absurd he (by decide)

/-- PSCI_CPU_ON keeps its promise for every target, PSCI_CPU_OFF for the targets that
psci_fn_cpu_on would let through. -/
theorem psci_target_iff (t : BitVec 32) (entryPoint : Word) (s : CpuArray) :
    TargetChecked (CpuArray.psciFnCpuOn t entryPoint) t sgiCoreWake s ∧
    (TargetChecked (CpuArray.psciFnCpuOff t) t sgiCoreSleep s ↔ t.toNat < maxCpus) := by
  refine ⟨psciFnCpuOn_checked t entryPoint s,fun h => ?_,fun h => psciFnCpuOff_checked h s⟩
  by_cases ht : t.toNat < maxCpus
  · exact ht
  · exact absurd h (psciFnCpuOff_unchecked (Nat.not_lt.mp ht) s)

/-- Memory in which every byte pattern read as a power state says ON. -/
def allOn : CpuArray where
  cpus _ := ⟨.on,0,0,.zero,.zero⟩
  io := []

/-- Target 10 reads past the array; 255 goes to every core but the caller, 257 to core 1,
and 25 raises another interrupt on no core at all. -/
theorem cpuOff_beyond :
    ¬ TargetChecked (CpuArray.psciFnCpuOff 10) 10 sgiCoreSleep allOn ∧
    (CpuArray.psciFnCpuOff 255 allOn).1 = psciSuccess ∧
    (∃ v, (CpuArray.psciFnCpuOff 255 allOn).2.io = [.sgi0r v] ∧ sgiIrm v = true) ∧
    (CpuArray.psciFnCpuOff 257 allOn).1 = psciSuccess ∧
    (∃ v, (CpuArray.psciFnCpuOff 257 allOn).2.io = [.sgi0r v] ∧ SgiNames v 1 ∧ ¬ SgiNames v 257) ∧
    (CpuArray.psciFnCpuOff 25 allOn).1 = psciSuccess ∧
    (∃ v, (CpuArray.psciFnCpuOff 25 allOn).2.io = [.sgi0r v] ∧ sgiIntid v = 3 ∧
      sgiTargetList v = 0) := by
  refine ⟨psciFnCpuOff_unchecked (by decide) allOn,rfl,⟨_,rfl,by decide⟩,rfl,⟨_,rfl,?_,?_⟩,rfl,
    ⟨_,rfl,by decide,by decide⟩⟩
  · exact ⟨by decide,by decide,by decide,by decide,by decide,by decide⟩
  · rintro ⟨_,_,_,_,h,_⟩
    exact absurd h (by decide)

end Arm64

import Arm64Baremetal.A64
import Arm64Baremetal.El3Pstate

/-!
The 816 bytes of a trap frame, which the macros of el3_vector.S and the struct of
trap_frame.h lay out each on its own.
-/

set_option autoImplicit false

namespace Arm64
open Runs A64

namespace El3Vector

/-- The system registers that the macros name. -/
inductive Reg where
  | spsrEl3 | elrEl3 | esrEl3 | farEl3 | fpsr | fpcr
  deriving DecidableEq

def saveX : List (Insn Reg) :=
  [.stp 0 1 .sp 0,.stp 2 3 .sp 16,.stp 4 5 .sp 32,.stp 6 7 .sp 48,.stp 8 9 .sp 64,
    .stp 10 11 .sp 80,.stp 12 13 .sp 96,.stp 14 15 .sp 112,.stp 16 17 .sp 128,.stp 18 19 .sp 144,
    .stp 20 21 .sp 160,.stp 22 23 .sp 176,.stp 24 25 .sp 192,.stp 26 27 .sp 208,
    .stp 28 29 .sp 224,.str 30 .sp 240]

def saveQ : List (Insn Reg) :=
  [.stpQ 0 1 .sp 288,.stpQ 2 3 .sp 320,.stpQ 4 5 .sp 352,.stpQ 6 7 .sp 384,.stpQ 8 9 .sp 416,
    .stpQ 10 11 .sp 448,.stpQ 12 13 .sp 480,.stpQ 14 15 .sp 512,.stpQ 16 17 .sp 544,
    .stpQ 18 19 .sp 576,.stpQ 20 21 .sp 608,.stpQ 22 23 .sp 640,.stpQ 24 25 .sp 672,
    .stpQ 26 27 .sp 704,.stpQ 28 29 .sp 736,.stpQ 30 31 .sp 768]

def saveSys : List (Insn Reg) :=
  [.mrs 10 .spsrEl3,.mrs 11 .elrEl3,.mrs 12 .esrEl3,.mrs 13 .farEl3,
    .stp 10 11 .sp 248,.stp 12 13 .sp 264]

def saveFp : List (Insn Reg) :=
  [.addXSp 14 800,.mrs 10 .fpsr,.mrs 11 .fpcr,.stp 10 11 (.x 14) 0]

def saveContextCode : List (Insn Reg) := [.subSp 816] ++ saveX ++ saveSys ++ saveQ ++ saveFp

def restoreX : List (Insn Reg) :=
  [.ldp 0 1 .sp 0,.ldp 2 3 .sp 16,.ldp 4 5 .sp 32,.ldp 6 7 .sp 48,.ldp 8 9 .sp 64,
    .ldp 10 11 .sp 80,.ldp 12 13 .sp 96,.ldp 14 15 .sp 112,.ldp 16 17 .sp 128,.ldp 18 19 .sp 144,
    .ldp 20 21 .sp 160,.ldp 22 23 .sp 176,.ldp 24 25 .sp 192,.ldp 26 27 .sp 208,
    .ldp 28 29 .sp 224,.ldr 30 .sp 240]

def restoreQ : List (Insn Reg) :=
  [.ldpQ 0 1 .sp 288,.ldpQ 2 3 .sp 320,.ldpQ 4 5 .sp 352,.ldpQ 6 7 .sp 384,.ldpQ 8 9 .sp 416,
    .ldpQ 10 11 .sp 448,.ldpQ 12 13 .sp 480,.ldpQ 14 15 .sp 512,.ldpQ 16 17 .sp 544,
    .ldpQ 18 19 .sp 576,.ldpQ 20 21 .sp 608,.ldpQ 22 23 .sp 640,.ldpQ 24 25 .sp 672,
    .ldpQ 26 27 .sp 704,.ldpQ 28 29 .sp 736,.ldpQ 30 31 .sp 768]

def restoreSys : List (Insn Reg) :=
  [.ldp 10 11 .sp 248,.msr .spsrEl3 10,.msr .elrEl3 11,.addXSp 14 800,.ldp 10 11 (.x 14) 0,
    .msr .fpsr 10,.msr .fpcr 11]

/-- The macro RESTORE_CONTEXT up to its `eret`. -/
def restoreContextCode : List (Insn Reg) := restoreSys ++ restoreX ++ restoreQ ++ [.addSp 816]

/-- What SAVE_CONTEXT stores, by offset from the new stack pointer. -/
def saved (s : State Reg) : List (Nat × Word) :=
  (List.finRange 31).map (fun i => (8 * i.val,s.x i.val)) ++
  [(248,s.sys .spsrEl3),(256,s.sys .elrEl3),(264,s.sys .esrEl3),(272,s.sys .farEl3)] ++
  (List.finRange 32).flatMap (fun i => (List.finRange 2).map fun j =>
    (288 + 16 * i.val + 8 * j.val,s.q (i.val,j.val))) ++
  [(800,s.sys .fpsr),(808,s.sys .fpcr)]

def doublewords (ws : List (Nat × Word)) : List (Nat × Nat × Nat) :=
  ws.map fun w => (w.1,8,w.2.toNat)

theorem exec_saveX (s : State Reg) :
    execAll s saveX = { s with
      mem := storeAt s.mem s.sp
        (doublewords ((List.finRange 31).map fun i => (8 * i.val,s.x i.val))) } := by
  rw [exec_stores (by decide),doublewords,← foldl_store64]
  rfl

theorem exec_saveQ (s : State Reg) :
    execAll s saveQ = { s with
      mem := storeAt s.mem s.sp
        (doublewords ((List.finRange 32).flatMap fun i => (List.finRange 2).map fun j =>
          (288 + 16 * i.val + 8 * j.val,s.q (i.val,j.val)))) } := by
  rw [exec_stores (by decide),doublewords,← foldl_store64]
  rfl

theorem exec_saveSys (s : State Reg) : ∃ x, execAll s saveSys = { s with
      x := x
      mem := storeAt s.mem s.sp (doublewords
        [(248,s.sys .spsrEl3),(256,s.sys .elrEl3),(264,s.sys .esrEl3),(272,s.sys .farEl3)]) } := by
  refine ⟨(execAll s (saveSys.take 4)).x,?_⟩
  have h : saveSys = saveSys.take 4 ++ saveSys.drop 4 := rfl
  rw [h,execAll_append,exec_stores (by decide),doublewords,← foldl_store64]
  rfl

theorem exec_saveFp (s : State Reg) : ∃ x, execAll s saveFp = { s with
      x := x
      mem := storeAt s.mem s.sp (doublewords [(800,s.sys .fpsr),(808,s.sys .fpcr)]) } := by
  refine ⟨(execAll s (saveFp.take 3)).x,?_⟩
  have h : saveFp = saveFp.take 3 ++ saveFp.drop 3 := rfl
  -- the stores go off x14, which holds sp + 800
  have hw : (saveFp.drop 3).flatMap (execAll s (saveFp.take 3)).writes =
      [(800,s.sys .fpsr),(808,s.sys .fpcr)].map fun w => (s.sp + BitVec.ofNat 64 w.1,w.2) := by
    change [(s.sp + 800#64 + 0#64,s.sys .fpsr),(s.sp + 800#64 + 8#64,s.sys .fpcr)] = _
    rw [BitVec.add_zero,BitVec.add_assoc]
    rfl
  rw [h,execAll_append,exec_stores (by decide),hw,doublewords,← foldl_store64]
  rfl

/-- SAVE_CONTEXT makes room for a frame and stores the registers in it. The registers it
uses itself, x10 to x14, are already in the frame. -/
theorem exec_saveContextCode (s : State Reg) : ∃ x, execAll s saveContextCode = { s with
      x := x
      sp := s.sp - 816
      mem := storeAt s.mem (s.sp - 816) (doublewords (saved s)) } := by
  obtain ⟨x₁,h₁⟩ := exec_saveSys (execAll (execAll s [.subSp 816]) saveX)
  obtain ⟨x₂,h₂⟩ := exec_saveFp
    (execAll (execAll (execAll (execAll s [.subSp 816]) saveX) saveSys) saveQ)
  refine ⟨x₂,?_⟩
  simp only [saveContextCode,execAll_append]
  rw [h₂,h₁,exec_saveQ,exec_saveX]
  simp only [saved,doublewords,List.map_append,storeAt_append]
  rfl

theorem saved_x (s : State Reg) (i : Fin 31) : (8 * i.val,s.x i.val) ∈ saved s := by
  simp only [saved,List.mem_append]
  exact .inl (.inl (.inl (List.mem_map.mpr ⟨i,List.mem_finRange i,rfl⟩)))

theorem saved_q (s : State Reg) (i : Fin 32) (j : Fin 2) :
    (288 + 16 * i.val + 8 * j.val,s.q (i.val,j.val)) ∈ saved s := by
  simp only [saved,List.mem_append]
  exact .inl (.inr (List.mem_flatMap.mpr
    ⟨i,List.mem_finRange i,List.mem_map.mpr ⟨j,List.mem_finRange j,rfl⟩⟩))

theorem saved_sys (s : State Reg) {w : Nat × Word}
    (h : w ∈ [(248,s.sys .spsrEl3),(256,s.sys .elrEl3),(264,s.sys .esrEl3),(272,s.sys .farEl3)]) :
    w ∈ saved s := by
  simp only [saved,List.mem_append]
  exact .inl (.inl (.inr h))

theorem saved_fp (s : State Reg) {w : Nat × Word}
    (h : w ∈ [(800,s.sys .fpsr),(808,s.sys .fpcr)]) : w ∈ saved s := by
  simp only [saved,List.mem_append]
  exact .inr h

def savedSlots : List (Nat × Nat) :=
  (List.finRange 31).map (fun i => (8 * i.val,8)) ++ [(248,8),(256,8),(264,8),(272,8)] ++
  (List.finRange 32).flatMap (fun i => (List.finRange 2).map fun j =>
    (288 + 16 * i.val + 8 * j.val,8)) ++ [(800,8),(808,8)]

theorem savedSlots_apart : Apart savedSlots := ⟨by decide,by decide +kernel⟩

theorem saved_apart (s : State Reg) : Apart (places (doublewords (saved s))) := by
  have h : places (doublewords (saved s)) = savedSlots := rfl
  rw [h]
  exact savedSlots_apart

theorem load_saved (s : State Reg) {m : Mem} {p : Word} {o : Nat} {w : Word}
    (h : (o,w) ∈ saved s) :
    BitVec.ofNat 64 (ByteMem.load (window (storeAt m p (doublewords (saved s))) p) o 8) = w := by
  have hl := load_storeAt (m := m) (p := p) (saved_apart s)
    (List.mem_map_of_mem (f := fun w : Nat × Word => (w.1,8,w.2.toNat)) h) w.isLt
  rw [hl]
  exact (BitVec.ofNat_toNat 64 w).trans (BitVec.setWidth_eq w)

/-- The core that these registers belong to, as it was below EL3. -/
def machineOf (s : State Reg) (el1 : SysRegs) : Machine where
  x i := s.x i.val
  v i j := s.q (i.val,j.val)
  fpsr := s.sys .fpsr
  fpcr := s.sys .fpcr
  pc := s.sys .elrEl3
  pstate := s.sys .spsrEl3
  sys := el1

end El3Vector

inductive Member where
  | regs | spsr | elr | esr | far | padding0 | vregs | fpsr | fpcr | padding1
  deriving DecidableEq

def trapFrameT : List Member :=
  [.regs,.spsr,.elr,.esr,.far,.padding0,.vregs,.fpsr,.fpcr,.padding1]

def Member.shape : Member → Nat × Nat
  | .regs => (31 * 8,8)
  | .vregs => (32 * 2 * 8,16)
  | .fpsr | .fpcr => (4,4)
  | .spsr | .elr | .esr | .far | .padding0 | .padding1 => (8,8)

def Member.offset (f : Member) : Nat :=
  (ByteMem.offsets 0 (trapFrameT.map Member.shape)).getD (trapFrameT.idxOf f) 0

theorem offset_regs : Member.regs.offset = 0 := by decide
theorem offset_spsr : Member.spsr.offset = 248 := by decide
theorem offset_elr : Member.elr.offset = 256 := by decide
theorem offset_esr : Member.esr.offset = 264 := by decide
theorem offset_far : Member.far.offset = 272 := by decide
theorem offset_fpsr : Member.fpsr.offset = 800 := by decide
theorem offset_fpcr : Member.fpcr.offset = 800 + 4 := by decide
theorem offset_padding1 : Member.padding1.offset = 808 := by decide

namespace TrapFrame

/-- What C code reads through a trap_frame_t pointer to the start of `w`. -/
def view (w : ByteMem.Mem) : TrapFrame where
  regs i := BitVec.ofNat 64 (ByteMem.load w (Member.regs.offset + 8 * i.val) 8)
  spsr := BitVec.ofNat 64 (ByteMem.load w Member.spsr.offset 8)
  elr := BitVec.ofNat 64 (ByteMem.load w Member.elr.offset 8)
  esr := BitVec.ofNat 64 (ByteMem.load w Member.esr.offset 8)
  far := BitVec.ofNat 64 (ByteMem.load w Member.far.offset 8)
  vregs i j := BitVec.ofNat 64 (ByteMem.load w (Member.vregs.offset + 16 * i.val + 8 * j.val) 8)
  fpsr := BitVec.ofNat 32 (ByteMem.load w Member.fpsr.offset 4)
  fpcr := BitVec.ofNat 32 (ByteMem.load w Member.fpcr.offset 4)
  padding1 := BitVec.ofNat 64 (ByteMem.load w Member.padding1.offset 8)

/-- The stores of C code that assigns every field that has a name. -/
def stores (f : TrapFrame) : List (Nat × Nat × Nat) :=
  (List.finRange 31).map (fun i => (Member.regs.offset + 8 * i.val,8,(f.regs i).toNat)) ++
  [(Member.spsr.offset,8,f.spsr.toNat),(Member.elr.offset,8,f.elr.toNat),
    (Member.esr.offset,8,f.esr.toNat),(Member.far.offset,8,f.far.toNat)] ++
  (List.finRange 32).flatMap (fun i => (List.finRange 2).map fun j =>
    (Member.vregs.offset + 16 * i.val + 8 * j.val,8,(f.vregs i j).toNat)) ++
  [(Member.fpsr.offset,4,f.fpsr.toNat),(Member.fpcr.offset,4,f.fpcr.toNat)]

def slots : List (Nat × Nat) :=
  (List.finRange 31).map (fun i => (8 * i.val,8)) ++ [(248,8),(256,8),(264,8),(272,8)] ++
  (List.finRange 32).flatMap (fun i => (List.finRange 2).map fun j =>
    (288 + 16 * i.val + 8 * j.val,8)) ++ [(800,4),(804,4)]

theorem stores_places (f : TrapFrame) : places f.stores = slots := rfl

theorem slots_apart : Apart slots := ⟨by decide,by decide +kernel⟩

theorem stores_regs (f : TrapFrame) (i : Fin 31) :
    (Member.regs.offset + 8 * i.val,8,(f.regs i).toNat) ∈ f.stores := by
  simp only [stores,List.mem_append]
  exact .inl (.inl (.inl (List.mem_map.mpr ⟨i,List.mem_finRange i,rfl⟩)))

theorem stores_vregs (f : TrapFrame) (i : Fin 32) (j : Fin 2) :
    (Member.vregs.offset + 16 * i.val + 8 * j.val,8,(f.vregs i j).toNat) ∈ f.stores := by
  simp only [stores,List.mem_append]
  exact .inl (.inr (List.mem_flatMap.mpr
    ⟨i,List.mem_finRange i,List.mem_map.mpr ⟨j,List.mem_finRange j,rfl⟩⟩))

variable (f : TrapFrame) (m : Mem) (p : Word)

theorem load_stores {o n : Nat} {w : BitVec (8 * n)} (h : (o,n,w.toNat) ∈ f.stores) :
    BitVec.ofNat (8 * n) (ByteMem.load (window (storeAt m p f.stores) p) o n) = w := by
  have hb : w.toNat < 256 ^ n := by
    have := w.isLt
    rwa [Nat.pow_mul] at this
  rw [load_storeAt (by rw [stores_places]; exact slots_apart) h hb]
  exact (BitVec.ofNat_toNat _ w).trans (BitVec.setWidth_eq w)

theorem view_stores : view (window (storeAt m p f.stores) p) =
    { f with padding1 := (view (window m p)).padding1 } := by
  cases f with
  | mk regs spsr elr esr far vregs fpsr fpcr padding1 =>
  simp only [view,TrapFrame.mk.injEq]
  refine ⟨funext fun i => ?_,?_,?_,?_,?_,funext fun i => funext fun j => ?_,?_,?_,?_⟩
  · exact load_stores _ m p (stores_regs _ i)
  · exact load_stores _ m p (n := 8) (by simp [stores])
  · exact load_stores _ m p (n := 8) (by simp [stores])
  · exact load_stores _ m p (n := 8) (by simp [stores])
  · exact load_stores _ m p (n := 8) (by simp [stores])
  · exact load_stores _ m p (stores_vregs _ i j)
  · exact load_stores _ m p (n := 4) (by simp [stores])
  · exact load_stores _ m p (n := 4) (by simp [stores])
  · rw [load_storeAt_of_separate (by rw [stores_places]; exact slots_apart) (by decide)]
    rw [stores_places]
    decide

end TrapFrame

namespace El3Vector

theorem view_saved (s : State Reg) (el1 : SysRegs) (m : Mem) (p : Word) :
    TrapFrame.view (window (storeAt m p (doublewords (saved s))) p) =
      saveContext (machineOf s el1) (s.sys .esrEl3) (s.sys .farEl3) := by
  have hfp := load_saved (m := m) (p := p) s (saved_fp s List.mem_cons_self)
  simp only [TrapFrame.view,saveContext,TrapFrame.mk.injEq]
  refine ⟨funext fun i => ?_,?_,?_,?_,?_,funext fun i => funext fun j => ?_,?_,?_,?_⟩
  · rw [offset_regs,Nat.zero_add]
    exact load_saved s (saved_x s i)
  · exact load_saved s (saved_sys s (by simp [machineOf,offset_spsr]))
  · exact load_saved s (saved_sys s (by simp [machineOf,offset_elr]))
  · exact load_saved s (saved_sys s (by simp [offset_esr]))
  · exact load_saved s (saved_sys s (by simp [offset_far]))
  · exact load_saved s (saved_q s i j)
  · rw [offset_fpsr,load_low,hfp]
    rfl
  · rw [offset_fpcr,load_high,hfp]
    rfl
  · exact load_saved s (saved_fp s (by simp [machineOf,offset_padding1]))

theorem exec_restoreSys (s : State Reg) : ∃ x sys, execAll s restoreSys = { s with
      x := x
      sys := sys } ∧
    sys .spsrEl3 = s.load .sp 248 ∧ sys .elrEl3 = s.load .sp 256 ∧
    sys .fpsr = s.load .sp 800 ∧ sys .fpcr = s.load .sp 808 := by
  have h₀ : s.sp + 800#64 + 0#64 = s.sp + 800#64 := BitVec.add_zero _
  have h₈ : s.sp + 800#64 + 8#64 = s.sp + 808#64 := by
    rw [BitVec.add_assoc]
    rfl
  refine ⟨_,(execAll s restoreSys).sys,rfl,rfl,rfl,?_,?_⟩
  · exact congrArg (load64 s.mem) h₀
  · exact congrArg (load64 s.mem) h₈

theorem exec_restoreX (s : State Reg) : execAll s restoreX = { s with
    x := setAll s.x ((List.range 31).map fun i => (i,s.load .sp (8 * i))) } := by
  rw [exec_loads (by simp [restoreX,Insn.IsLoad])]
  rfl

def vectorHalves : List (Nat × Nat) :=
  (List.range 32).flatMap fun i => (List.range 2).map fun j => (i,j)

theorem exec_restoreQ (s : State Reg) : execAll s restoreQ = { s with
    q := setAll s.q (vectorHalves.map fun k => (k,s.load .sp (288 + 16 * k.1 + 8 * k.2))) } := by
  rw [exec_loadsQ (by simp [restoreQ,Insn.IsLoadQ])]
  rfl

theorem machineOf_restored (s : State Reg) (el1 : SysRegs) :
    machineOf (execAll s restoreContextCode) el1 =
      restoreContext (TrapFrame.view (window s.mem s.sp)) el1 := by
  obtain ⟨x,sys,h,hspsr,helr,hfpsr,hfpcr⟩ := exec_restoreSys s
  have hload : ∀ o, s.load .sp o = BitVec.ofNat 64 (ByteMem.load (window s.mem s.sp) o 8) :=
    fun o => load64_add s.mem s.sp o
  simp only [restoreContextCode,execAll_append]
  rw [h,exec_restoreX,exec_restoreQ]
  simp only [machineOf,restoreContext,Machine.mk.injEq]
  refine ⟨funext fun i => ?_,funext fun i => funext fun j => ?_,?_,?_,?_,?_,trivial⟩
  · have hi : i.val ∈ List.range 31 := List.mem_range.mpr i.isLt
    refine (setAll_map x (fun i => s.load .sp (8 * i)) _ i.val).trans ?_
    rw [if_pos hi,hload]
    simp only [TrapFrame.view,offset_regs,Nat.zero_add]
  · have hk : (i.val,j.val) ∈ vectorHalves :=
      List.mem_flatMap.mpr ⟨i.val,List.mem_range.mpr i.isLt,
        List.mem_map.mpr ⟨j.val,List.mem_range.mpr j.isLt,rfl⟩⟩
    refine (setAll_map s.q (fun k => s.load .sp (288 + 16 * k.1 + 8 * k.2)) _ _).trans ?_
    rw [if_pos hk,hload]
    rfl
  · have hw := fpsr_halves (s.load .sp 800)
    rw [hload,← load_low,← load_high,← hload,← hfpsr] at hw
    exact hw.symm
  · exact hfpcr.trans (hload 808)
  · exact helr.trans (hload 256)
  · exact hspsr.trans (hload 248)

structure FieldsHold (f : TrapFrame) (m : Machine) (esr far : Word) : Prop where
  regs : f.regs = m.x
  spsr : f.spsr = m.pstate
  elr : f.elr = m.pc
  esr : f.esr = esr
  far : f.far = far
  vregs : f.vregs = m.v
  fpsr : f.fpsr = m.fpsr.setWidth 32
  fpcr : f.fpcr = m.fpcr.setWidth 32

/-- The registers of `m` are those that the fields of the struct ask for. -/
structure FieldsLoaded (f : TrapFrame) (m : Machine) : Prop where
  regs : m.x = f.regs
  spsr : m.pstate = f.spsr
  elr : m.pc = f.elr
  vregs : m.v = f.vregs
  fpsr : m.fpsr.setWidth 32 = f.fpsr
  fpcr : m.fpcr.setWidth 32 = f.fpcr

theorem fieldsHold_iff (m : Machine) (esr far : Word) :
    FieldsHold (saveContext m esr far) m esr far ↔
      (m.fpsr >>> 32).setWidth 32 = (m.fpcr.setWidth 32 : BitVec 32) :=
  ⟨fun h => h.fpcr,fun h => ⟨rfl,rfl,rfl,rfl,rfl,rfl,rfl,h⟩⟩

theorem fieldsLoaded_iff (f : TrapFrame) (w : Word) (el1 : SysRegs) :
    FieldsLoaded f (restoreContext { f with padding1 := w } el1) ↔ w.setWidth 32 = f.fpcr := by
  have h : (f.fpcr ++ f.fpsr).setWidth 32 = f.fpsr := BitVec.setWidth_append_eq_right
  exact ⟨fun h => h.fpcr,fun hp => ⟨rfl,rfl,rfl,rfl,h,hp⟩⟩

def frameOf (s : State Reg) : TrapFrame :=
  let t := execAll s saveContextCode
  TrapFrame.view (window t.mem t.sp)

/-- RESTORE_CONTEXT after C code that assigned the fields of `f`, from any other registers. -/
def afterWrites (s u : State Reg) (f : TrapFrame) : State Reg :=
  let t := execAll s saveContextCode
  execAll { u with sp := t.sp, mem := storeAt t.mem t.sp f.stores } restoreContextCode

theorem frameOf_eq (s : State Reg) (el1 : SysRegs) :
    frameOf s = saveContext (machineOf s el1) (s.sys .esrEl3) (s.sys .farEl3) := by
  obtain ⟨x,h⟩ := exec_saveContextCode s
  simp only [frameOf,h]
  exact view_saved s el1 s.mem (s.sp - 816)

theorem afterWrites_eq (s u : State Reg) (f : TrapFrame) (el1 : SysRegs) :
    machineOf (afterWrites s u f) el1 =
      restoreContext { f with padding1 := s.sys .fpcr } el1 := by
  have hp : (frameOf s).padding1 = s.sys .fpcr := by rw [frameOf_eq s el1]; rfl
  simp only [afterWrites]
  rw [machineOf_restored,TrapFrame.view_stores]
  exact congrArg (fun w => restoreContext { f with padding1 := w } el1) hp

end El3Vector

def System.fp (s : System) (c : CoreId) : Word × Word :=
  ((s.core c).machine.fpsr,(s.core c).machine.fpcr)

variable {img : Image} {c : CoreId} {s : System} {e : Event}

/-- A world switch takes FPSR from the context and leaves FPCR in the register. -/
theorem saves_fp (h : s.SavesSecure c e) {k : Machine} (hk : (s.cpus c).nsContext.Holds k) :
    (step img s e).fp c = (k.fpsr,(s.core c).machine.fpcr) := by
  refine Prod.ext (returns_of_saves h hk).2.fpsr ?_
  rcases h with hy | hp
  · obtain ⟨esr,far,hs⟩ := step_of_yield img hy
    simp only [System.fp]
    rw [hs,leaveSecure_machine esr far hk.initialized]
    rfl
  · obtain ⟨io,hs⟩ := step_of_preempt img (s := s) hp
    simp only [System.fp]
    rw [hs,jump_machine io hk.initialized]
    rfl

theorem enters_fp (h : s.EntersSecure c e) {k : Machine} (hk : (s.cpus c).sContext.Holds k) :
    (step img s e).fp c = (k.fpsr,(s.core c).machine.fpcr) := by
  have hm : ((step img s e).core c).machine = s.entered c := by
    rcases h with hc | hr
    · obtain ⟨esr,far,hs⟩ := step_of_seeosCall img hc
      rw [hs]
      exact seeosCall_machine img esr far hk.initialized
    · obtain ⟨esr,far,hs⟩ := step_of_resume img hr
      rw [hs]
      exact enterSecure_machine esr far hk.initialized
  rw [System.fp,hm]
  exact Prod.ext hk.fpsr rfl

theorem returned_fp (h : s.SeeosCall c e) {work : List Event} {leave : Event}
    (hw : Along (step img) (NoSeeosCall c) (step img s e) work)
    (hl : (exec (step img) (step img s e) work).SavesSecure c leave) :
    (step img (exec (step img) (step img s e) work) leave).fp c =
      ((s.core c).machine.fpsr,((exec (step img) (step img s e) work).core c).machine.fpcr) := by
  obtain ⟨esr,far,hs⟩ := step_of_seeosCall img h
  refine saves_fp hl ?_
  rw [nsContext_run hw,hs]
  exact seeosCall_nsContext img s c esr far

theorem reentered_fp (h : s.SavesSecure c e) {rest : List Event} {enter : Event}
    (hr : Along (step img) (fun s e => ¬ s.SavesSecure c e) (step img s e) rest)
    (he : (exec (step img) (step img s e) rest).EntersSecure c enter) :
    (step img (exec (step img) (step img s e) rest) enter).fp c =
      ((s.core c).machine.fpsr,((exec (step img) (step img s e) rest).core c).machine.fpcr) := by
  refine enters_fp he ?_
  exact exec_invariant (I := fun t => (t.cpus c).sContext.Holds (s.core c).machine)
    (fun t f ht hk => by rw [sContext_keeps hk]; exact ht) (sContext_saves h) hr

/-- The two layouts agree in every field but `fpcr`, which overlaps the upper half of FPSR;
FPCR is stored in the padding after it, where no context finds it. -/
theorem trapFrame_agrees_iff (s u : A64.State El3Vector.Reg) (el1 : SysRegs) (f : TrapFrame)
    (img : Image) (c : CoreId) (r : System) (e e' : Event) (es : List Event) :
    let call := exec (step img) (step img r e) es
    (El3Vector.FieldsHold (El3Vector.frameOf s) (El3Vector.machineOf s el1)
        (s.sys .esrEl3) (s.sys .farEl3) ↔
      (s.sys .fpsr >>> 32).setWidth 32 = ((s.sys .fpcr).setWidth 32 : BitVec 32)) ∧
    (El3Vector.FieldsLoaded f (El3Vector.machineOf (El3Vector.afterWrites s u f) el1) ↔
      (s.sys .fpcr).setWidth 32 = f.fpcr) ∧
    (r.SeeosCall c e → Along (step img) (NoSeeosCall c) (step img r e) es →
      call.SavesSecure c e' →
      ((step img call e').fp c = r.fp c ↔ (call.fp c).2 = (r.fp c).2)) ∧
    (r.SavesSecure c e →
      Along (step img) (fun s e => ¬ s.SavesSecure c e) (step img r e) es →
      call.EntersSecure c e' →
      ((step img call e').fp c = r.fp c ↔ (call.fp c).2 = (r.fp c).2)) := by
  intro call
  refine ⟨?_,?_,fun h hes hl => ?_,fun h hes he => ?_⟩
  · rw [El3Vector.frameOf_eq s el1]
    exact El3Vector.fieldsHold_iff _ _ _
  · rw [El3Vector.afterWrites_eq]
    exact El3Vector.fieldsLoaded_iff f (s.sys .fpcr) el1
  · rw [returned_fp h hes hl]
    exact ⟨fun h => (Prod.ext_iff.mp h).2,fun h => Prod.ext rfl h⟩
  · rw [reentered_fp h hes he]
    exact ⟨fun h => (Prod.ext_iff.mp h).2,fun h => Prod.ext rfl h⟩

/-- EL3 entered with these two registers and all others clear. -/
def El3Vector.entered (fpsr fpcr : Word) : A64.State El3Vector.Reg where
  x _ := 0
  q _ := 0
  sp := 0x40020000
  sys
    | .fpsr => fpsr
    | .fpcr => fpcr
    | _ => 0
  mem _ := 0

def TrapFrame.withFpcr (fpcr : BitVec 32) : TrapFrame :=
  { El3Vector.saveContext .zero 0 0 with fpcr := fpcr }

/-- A world that flushes denormals to zero, next to one that does not. -/
theorem fpcr_leaks :
    let ftz : Word := 0x01000000
    let s := El3Vector.entered 0 ftz
    let r := El3Vector.entered 0 0
    let el1 := Machine.zero.sys
    let m := { Machine.calling 0x10000010 0x40300104 with fpcr := ftz }
    let a := { Machine.calling smcYield 0x40041004 with fpcr := 0 }
    let t := step testImage (yielding m a) (.sync 0 smcEsr 0)
    let u := step testImage (askedAgain m a m) (.sync 0 smcEsr 0)
    ¬ El3Vector.FieldsHold (El3Vector.frameOf s) (El3Vector.machineOf s el1) 0 0 ∧
    ¬ El3Vector.FieldsLoaded (.withFpcr 0x01000000)
      (El3Vector.machineOf (El3Vector.afterWrites r r (.withFpcr 0x01000000)) el1) ∧
    Returned testImage 0 (kernelCalling m) (.sync 0 smcEsr 0) t ∧
    (kernelCalling m).fp 0 = (0,ftz) ∧ t.fp 0 = (0,0) ∧
    Reentered testImage 0 (yielding m a) (.sync 0 smcEsr 0) u ∧
    (yielding m a).fp 0 = (0,0) ∧ u.fp 0 = (0,ftz) := by
  intro ftz s r el1 m a t u
  have hy : (yielding m a).Secure 0 ∧ (yielding m a).smc 0 (.sync 0 smcEsr 0) = some smcYield := by
    decide
  refine ⟨?_,?_,versionCall_returned ⟨0x10000010,by decide,by decide⟩ (.inl hy.2),by decide,
    by decide,yielding_reentered hy.1 hy.2 (.inl ⟨0x10000010,by decide,by decide⟩),by decide,
    by decide⟩
  · rw [El3Vector.frameOf_eq s el1]
    exact fun h => absurd h.fpcr (by decide)
  · rw [El3Vector.afterWrites_eq]
    exact fun h => absurd h.fpcr (by decide)

/-- Two worlds that both leave FPCR at zero. -/
theorem fpcr_zero :
    let s := El3Vector.entered 0x08000000 0
    let m := { Machine.calling 0x10000010 0x40300104 with fpsr := 1 }
    let a := { Machine.calling smcYield 0x40041004 with fpsr := 2 }
    El3Vector.FieldsHold (El3Vector.frameOf s) (El3Vector.machineOf s Machine.zero.sys) 0 0 ∧
    El3Vector.FieldsLoaded (.withFpcr 0)
      (El3Vector.machineOf (El3Vector.afterWrites s s (.withFpcr 0)) Machine.zero.sys) ∧
    (step testImage (yielding m a) (.sync 0 smcEsr 0)).fp 0 = (kernelCalling m).fp 0 ∧
    (step testImage (askedAgain m a m) (.sync 0 smcEsr 0)).fp 0 = (yielding m a).fp 0 := by
  intro s m a
  have hy : (yielding m a).smc 0 (.sync 0 smcEsr 0) = some smcYield := by decide
  have hc : (kernelCalling m).SeeosCall 0 (.sync 0 smcEsr 0) := ⟨0x10000010,by decide,by decide⟩
  have ha : (askedAgain m a m).EntersSecure 0 (.sync 0 smcEsr 0) :=
    .inl ⟨0x10000010,by decide,by decide⟩
  have hrun : ¬ (step testImage (yielding m a) (.sync 0 smcEsr 0)).SavesSecure 0 (.run 0 m) := by
    rintro (h | h) <;> contradiction
  have call := trapFrame_agrees_iff s s Machine.zero.sys (.withFpcr 0) testImage 0
    (kernelCalling m) (.sync 0 smcEsr 0) (.sync 0 smcEsr 0) [.run 0 a]
  have again := trapFrame_agrees_iff s s Machine.zero.sys (.withFpcr 0) testImage 0
    (yielding m a) (.sync 0 smcEsr 0) (.sync 0 smcEsr 0) [.run 0 m]
  exact ⟨call.1.2 (by decide),call.2.1.2 (by decide),
    (call.2.2.1 hc ⟨noSeeosCall_run 0 0 _ _,trivial⟩ (.inl hy)).2 (by decide),
    (again.2.2.2 (.inl hy) ⟨hrun,trivial⟩ ha).2 (by decide)⟩

end Arm64

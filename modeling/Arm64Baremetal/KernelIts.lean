import Arm64Baremetal.El3Frame
import Arm64Baremetal.Runs

/-!
The command queue of kernel_its.c: eleven functions that write a command into the ring and
wait for the ITS, and an ITS that reads the ring at any time.
-/

set_option autoImplicit false

namespace Arm64.Its
open Runs

/-- `command_queue[i] = val`. From index 512 on these are stores to the objects that the
linker places behind the queue; cmd_offset is defined before it. -/
abbrev Store := Nat × Word

/-- The loop at the start of a function, and what it stores after that. -/
def zeroSlot (index : Nat) (rest : List Store) : List Store :=
  (List.range 4).map (fun i => (index + i,0)) ++ rest

/-- `mem_zero(&command_queue[index + i], sizeof(command_queue))`, four times. -/
def zeroQueue (index : Nat) (rest : List Store) : List Store :=
  (List.range 4).flatMap (fun i => (List.range 512).map fun j => (index + i + j,0)) ++ rest

def deviceEvent (index : Nat) (opcode deviceId : Word) (eventId : BitVec 32) : List Store :=
  [(index + 0,opcode ||| deviceId <<< 32),(index + 1,eventId.setWidth 64)]

/-- The variable V of its_mapd. -/
def validBit (valid : BitVec 32) : Word := if valid ≠ 0 then (1 : Word) <<< 63 else 0

def itsMapd (index : Nat) (deviceId ittAddr : Word) (size valid : BitVec 32) : List Store :=
  zeroSlot index [(index + 0,(0x08 : Word) ||| deviceId <<< 32),
    (index + 1,(size - 1).setWidth 64),(index + 2,ittAddr ||| validBit valid)]

def itsMapc (index : Nat) (collectionId targetIndex : BitVec 32) : List Store :=
  zeroSlot index [(index + 0,0x09),
    (index + 2,((collectionId &&& (0xFFFF : BitVec 32)) ||| targetIndex <<< 16).setWidth 64 |||
      (1 : Word) <<< 63)]

def itsMapti (index : Nat) (deviceId : Word) (eventId pIntid collId : BitVec 32) : List Store :=
  zeroSlot index [(index + 0,(0x0A : Word) ||| deviceId <<< 32),
    (index + 1,eventId.setWidth 64 ||| pIntid.setWidth 64 <<< 32),
    (index + 2,(collId &&& (0xFFFF : BitVec 32)).setWidth 64)]

def itsSync (index : Nat) (targetIndex : BitVec 32) : List Store :=
  zeroSlot index [(index + 0,0x05),(index + 2,(targetIndex <<< 16).setWidth 64)]

def itsInt (index : Nat) (deviceId : Word) (eventId : BitVec 32) : List Store :=
  zeroSlot index (deviceEvent index 0x03 deviceId eventId)

def itsInv (index : Nat) (deviceId : Word) (eventId : BitVec 32) : List Store :=
  zeroSlot index (deviceEvent index 0x0C deviceId eventId)

def itsDiscard (index : Nat) (deviceId : Word) (eventId : BitVec 32) : List Store :=
  zeroSlot index (deviceEvent index 0x0F deviceId eventId)

def itsClear (index : Nat) (deviceId : Word) (eventId : BitVec 32) : List Store :=
  zeroSlot index (deviceEvent index 0x04 deviceId eventId)

def itsInvall (index : Nat) (collectionId : BitVec 32) : List Store :=
  zeroSlot index [(index + 0,0x0D),(index + 2,collectionId.setWidth 64)]

def itsMovall (index : Nat) (rdBase rdTarget : BitVec 32) : List Store :=
  zeroQueue index [(index + 0,0x0E),(index + 2,(rdBase <<< 16).setWidth 64),
    (index + 3,(rdTarget <<< 16).setWidth 64)]

def itsMovi (index : Nat) (deviceId : Word) (eventId collectionId : BitVec 32) : List Store :=
  zeroQueue index (deviceEvent index 0x01 deviceId eventId ++
    [(index + 2,collectionId.setWidth 64)])

inductive Call where
  | mapd (deviceId ittAddr : Word) (size valid : BitVec 32)
  | mapc (collectionId targetIndex : BitVec 32)
  | mapti (deviceId : Word) (eventId pIntid collId : BitVec 32)
  | sync (targetIndex : BitVec 32)
  | int (deviceId : Word) (eventId : BitVec 32)
  | inv (deviceId : Word) (eventId : BitVec 32)
  | discard (deviceId : Word) (eventId : BitVec 32)
  | clear (deviceId : Word) (eventId : BitVec 32)
  | invall (collectionId : BitVec 32)
  | movall (rdBase rdTarget : BitVec 32)
  | movi (deviceId : Word) (eventId collectionId : BitVec 32)
  deriving DecidableEq

def Call.stores (index : Nat) : Call → List Store
  | .mapd deviceId ittAddr size valid => itsMapd index deviceId ittAddr size valid
  | .mapc collectionId targetIndex => itsMapc index collectionId targetIndex
  | .mapti deviceId eventId pIntid collId => itsMapti index deviceId eventId pIntid collId
  | .sync targetIndex => itsSync index targetIndex
  | .int deviceId eventId => itsInt index deviceId eventId
  | .inv deviceId eventId => itsInv index deviceId eventId
  | .discard deviceId eventId => itsDiscard index deviceId eventId
  | .clear deviceId eventId => itsClear index deviceId eventId
  | .invall collectionId => itsInvall index collectionId
  | .movall rdBase rdTarget => itsMovall index rdBase rdTarget
  | .movi deviceId eventId collectionId => itsMovi index deviceId eventId collectionId

inductive Stmt where
  | store (p : Store)
  | advance
  | publish
  | wait

inductive Command where
  | mapd (deviceId eventBits ittAddr : Nat) (valid : Bool)
  | mapc (icid rdBase : Nat) (valid : Bool)
  | mapti (deviceId eventId pIntid icid : Nat)
  | sync (rdBase : Nat)
  | int (deviceId eventId : Nat)
  | inv (deviceId eventId : Nat)
  | discard (deviceId eventId : Nat)
  | clear (deviceId eventId : Nat)
  | invall (icid : Nat)
  | movall (rdBase1 rdBase2 : Nat)
  | movi (deviceId eventId icid : Nat)
  deriving DecidableEq

def field (w : Word) (lo n : Nat) : Nat := w.toNat / 2 ^ lo % 2 ^ n

/-- The command layout of GICv3. The Size field is one less than the number of EventID
bits, and the ITT address has its low 8 bits zero. -/
def decode (w : Nat → Word) : Option Command :=
  let deviceId := field (w 0) 32 32
  let eventId := field (w 1) 0 32
  let icid := field (w 2) 0 16
  let rdBase := field (w 2) 16 36
  let valid := field (w 2) 63 1 = 1
  match field (w 0) 0 8 with
  | 0x01 => some (.movi deviceId eventId icid)
  | 0x03 => some (.int deviceId eventId)
  | 0x04 => some (.clear deviceId eventId)
  | 0x05 => some (.sync rdBase)
  | 0x08 => some (.mapd deviceId (field (w 1) 0 5 + 1) (field (w 2) 8 44 * 2 ^ 8) valid)
  | 0x09 => some (.mapc icid rdBase valid)
  | 0x0A => some (.mapti deviceId eventId (field (w 1) 32 32) icid)
  | 0x0C => some (.inv deviceId eventId)
  | 0x0D => some (.invall icid)
  | 0x0E => some (.movall rdBase (field (w 3) 16 36))
  | 0x0F => some (.discard deviceId eventId)
  | _ => none

def Call.command : Call → Command
  | .mapd deviceId ittAddr size valid =>
      .mapd deviceId.toNat size.toNat ittAddr.toNat (valid ≠ 0)
  | .mapc collectionId targetIndex => .mapc collectionId.toNat targetIndex.toNat true
  | .mapti deviceId eventId pIntid collId =>
      .mapti deviceId.toNat eventId.toNat pIntid.toNat collId.toNat
  | .sync targetIndex => .sync targetIndex.toNat
  | .int deviceId eventId => .int deviceId.toNat eventId.toNat
  | .inv deviceId eventId => .inv deviceId.toNat eventId.toNat
  | .discard deviceId eventId => .discard deviceId.toNat eventId.toNat
  | .clear deviceId eventId => .clear deviceId.toNat eventId.toNat
  | .invall collectionId => .invall collectionId.toNat
  | .movall rdBase rdTarget => .movall rdBase.toNat rdTarget.toNat
  | .movi deviceId eventId collectionId =>
      .movi deviceId.toNat eventId.toNat collectionId.toNat

def Call.InRange : Call → Prop
  | .mapd deviceId ittAddr size _ => deviceId.toNat < 2 ^ 32 ∧ ittAddr.toNat % 256 = 0 ∧
      ittAddr.toNat < 2 ^ 52 ∧ 1 ≤ size.toNat ∧ size.toNat ≤ 32
  | .mapc collectionId targetIndex => collectionId.toNat < 2 ^ 16 ∧ targetIndex.toNat < 2 ^ 16
  | .mapti deviceId _ _ collId => deviceId.toNat < 2 ^ 32 ∧ collId.toNat < 2 ^ 16
  | .sync targetIndex => targetIndex.toNat < 2 ^ 16
  | .int deviceId _ | .inv deviceId _ | .discard deviceId _ | .clear deviceId _ =>
      deviceId.toNat < 2 ^ 32
  | .invall collectionId => collectionId.toNat < 2 ^ 16
  | .movall rdBase rdTarget => rdBase.toNat < 2 ^ 16 ∧ rdTarget.toNat < 2 ^ 16
  | .movi deviceId _ collectionId => deviceId.toNat < 2 ^ 32 ∧ collectionId.toNat < 2 ^ 16

instance : (c : Call) → Decidable c.InRange
  | .mapd .. | .mapc .. | .mapti .. | .movall .. | .movi .. => inferInstanceAs (Decidable (_ ∧ _))
  | .sync _ | .int .. | .inv .. | .discard .. | .clear .. | .invall _ =>
    inferInstanceAs (Decidable (_ < _))

def write (q : Nat → Word) (l : List Store) : Nat → Word :=
  l.foldl (fun q p => Function.update q p.1 p.2) q

section Fields

theorem toNat_or_shift {n k : Nat} {lo hi : BitVec n} (hlo : lo.toNat < 2 ^ k)
    (hhi : hi.toNat * 2 ^ k < 2 ^ n) : (lo ||| hi <<< k).toNat = hi.toNat * 2 ^ k + lo.toNat := by
  rw [BitVec.toNat_or,BitVec.toNat_shiftLeft,Nat.shiftLeft_eq,Nat.mod_eq_of_lt hhi,Nat.or_comm,
    ← Nat.shiftLeft_eq,Nat.shiftLeft_add_eq_or_of_lt hlo]

theorem field_event (e : BitVec 32) : field (e.setWidth 64) 0 32 = e.toNat := by
  rw [field,BitVec.toNat_setWidth]
  omega

theorem field_device {op d : Word} (hop : op.toNat < 256) (hd : d.toNat < 2 ^ 32) :
    field (op ||| d <<< 32) 0 8 = op.toNat ∧ field (op ||| d <<< 32) 32 32 = d.toNat := by
  have h := @toNat_or_shift 64 32 op d (by omega) (by omega)
  rw [field,field,h]
  omega

theorem field_icid {c : BitVec 32} (hc : c.toNat < 2 ^ 16) :
    field (c.setWidth 64) 0 16 = c.toNat := by
  rw [field,BitVec.toNat_setWidth]
  omega

theorem and_low16 (c : BitVec 32) (hc : c.toNat < 2 ^ 16) : c &&& 0xFFFF = c := by
  apply BitVec.eq_of_toNat_eq
  rw [BitVec.toNat_and]
  exact (Nat.and_two_pow_sub_one_eq_mod c.toNat 16).trans (Nat.mod_eq_of_lt hc)

theorem field_target {c : BitVec 32} (hc : c.toNat < 2 ^ 16) :
    field ((c <<< 16).setWidth 64) 16 36 = c.toNat := by
  rw [field,BitVec.toNat_setWidth,BitVec.toNat_shiftLeft,Nat.shiftLeft_eq]
  omega

theorem field_events (e p : BitVec 32) :
    field (e.setWidth 64 ||| p.setWidth 64 <<< 32) 0 32 = e.toNat ∧
      field (e.setWidth 64 ||| p.setWidth 64 <<< 32) 32 32 = p.toNat := by
  have he : (e.setWidth 64).toNat = e.toNat := by rw [BitVec.toNat_setWidth]; omega
  have hp : (p.setWidth 64).toNat = p.toNat := by rw [BitVec.toNat_setWidth]; omega
  have h := @toNat_or_shift 64 32 (e.setWidth 64) (p.setWidth 64) (by omega) (by omega)
  rw [field,field,h,he,hp]
  omega

theorem field_mapc {c t : BitVec 32} (hc : c.toNat < 2 ^ 16) (ht : t.toNat < 2 ^ 16) :
    let w : Word := (c ||| t <<< 16).setWidth 64 ||| (1 : Word) <<< 63
    field w 0 16 = c.toNat ∧ field w 16 36 = t.toNat ∧ field w 63 1 = 1 := by
  intro w
  have hlow := @toNat_or_shift 32 16 c t hc (by omega)
  have hwide : ((c ||| t <<< 16).setWidth 64).toNat = t.toNat * 2 ^ 16 + c.toNat := by
    rw [BitVec.toNat_setWidth,hlow]
    omega
  have hw := @toNat_or_shift 64 63 ((c ||| t <<< 16).setWidth 64) 1 (by omega) (by decide)
  have h1 : (1 : Word).toNat = 1 := rfl
  simp only [field,w,hw,hwide,h1]
  omega

theorem field_size {size : BitVec 32} (h1 : 1 ≤ size.toNat) (h32 : size.toNat ≤ 32) :
    field ((size - 1).setWidth 64) 0 5 + 1 = size.toNat := by
  have hle : (1 : BitVec 32) ≤ size := h1
  have hsub : (size - 1).toNat = size.toNat - 1 := BitVec.toNat_sub_of_le hle
  rw [field,BitVec.toNat_setWidth,hsub]
  omega

theorem field_itt {addr : Word} (halign : addr.toNat % 256 = 0) (haddr : addr.toNat < 2 ^ 52)
    (valid : BitVec 32) : field (addr ||| validBit valid) 8 44 * 2 ^ 8 = addr.toNat ∧
      (field (addr ||| validBit valid) 63 1 = 1 ↔ valid ≠ 0) := by
  unfold validBit
  by_cases hv : valid ≠ 0
  · have hw := @toNat_or_shift 64 63 addr 1 (by omega) (by decide)
    have h1 : (1 : Word).toNat = 1 := rfl
    rw [if_pos hv,field,field,hw,h1]
    exact ⟨by omega,fun _ => hv,fun _ => by omega⟩
  · have hw : addr ||| 0 = addr := BitVec.or_zero
    rw [if_neg hv,field,field,hw]
    exact ⟨by omega,fun h => absurd h (by omega),fun h => absurd h hv⟩

end Fields

theorem write_append (q : Nat → Word) (l l' : List Store) :
    write q (l ++ l') = write (write q l) l' := List.foldl_append

theorem write_zeros (q : Nat → Word) {l : List Store} (h : ∀ p ∈ l, p.2 = 0) {k : Nat}
    (hk : q k = 0 ∨ ∃ p ∈ l, p.1 = k) : write q l k = 0 := by
  induction l generalizing q with
  | nil =>
    rcases hk with hk | ⟨p,hp,_⟩
    · exact hk
    · cases hp
  | cons p l ih =>
    refine ih (Function.update q p.1 p.2) (fun p' hp' => h p' (List.mem_cons_of_mem _ hp')) ?_
    by_cases hpk : p.1 = k
    · left
      rw [← hpk,Function.update_self,h p List.mem_cons_self]
    · rcases hk with hk | ⟨p',hp',hk⟩
      · left
        rw [Function.update_of_ne (Ne.symm hpk),hk]
      · rcases List.mem_cons.mp hp' with rfl | hp'
        · exact absurd hk hpk
        · exact .inr ⟨p',hp',hk⟩

def Zeroed (q : Nat → Word) (index : Nat) : Prop := ∀ j, j < 4 → q (index + j) = 0

theorem write_zeroSlot (q : Nat → Word) (index : Nat) :
    ∃ q', (∀ rest, write q (zeroSlot index rest) = write q' rest) ∧ Zeroed q' index := by
  refine ⟨_,fun _ => write_append _ _ _,fun j hj => write_zeros _ (fun p hp => ?_) (.inr ?_)⟩
  · obtain ⟨i,_,rfl⟩ := List.mem_map.mp hp
    rfl
  · exact ⟨(index + j,0),List.mem_map.mpr ⟨j,List.mem_range.mpr hj,rfl⟩,rfl⟩

theorem write_zeroQueue (q : Nat → Word) (index : Nat) :
    ∃ q', (∀ rest, write q (zeroQueue index rest) = write q' rest) ∧ Zeroed q' index := by
  refine ⟨_,fun _ => write_append _ _ _,fun j hj => write_zeros _ (fun p hp => ?_) (.inr ?_)⟩
  · obtain ⟨i,_,hp⟩ := List.mem_flatMap.mp hp
    obtain ⟨k,_,rfl⟩ := List.mem_map.mp hp
    rfl
  · refine ⟨(index + 0 + j,0),List.mem_flatMap.mpr ⟨0,by simp,?_⟩,rfl⟩
    exact List.mem_map.mpr ⟨j,List.mem_range.mpr (by omega),rfl⟩

theorem write_cons (q : Nat → Word) (i : Nat) (v : Word) (l : List Store) :
    write q ((i,v) :: l) = write (Function.update q i v) l := rfl

theorem write_nil (q : Nat → Word) : write q [] = q := rfl

theorem update_slot (q : Nat → Word) (index i j : Nat) (v : Word) :
    Function.update q (index + i) v (index + j) = if j = i then v else q (index + j) := by
  rw [Function.update_apply]
  congr 1
  exact propext (by omega)

theorem deviceEvent_fields {op d : Word} (hop : op.toNat < 256) (hd : d.toNat < 2 ^ 32)
    (q : Nat → Word) (index : Nat) (e : BitVec 32) :
    field (write q (deviceEvent index op d e) (index + 0)) 0 8 = op.toNat ∧
      field (write q (deviceEvent index op d e) (index + 0)) 32 32 = d.toNat ∧
      field (write q (deviceEvent index op d e) (index + 1)) 0 32 = e.toNat := by
  obtain ⟨hop,hd⟩ := field_device hop hd
  simp only [deviceEvent,write_cons,write_nil,update_slot,reduceIte,Nat.reduceEqDiff,hop,hd,
    field_event,and_self]

/-- Whatever the queue held, the slot holds the command of the call after its stores. -/
theorem decode_stores {c : Call} (h : c.InRange) (q : Nat → Word) (index : Nat) :
    decode (fun j => write q (c.stores index) (index + j)) = some c.command := by
  obtain ⟨q',hq,_⟩ := write_zeroSlot q index
  obtain ⟨q'',hq',_⟩ := write_zeroQueue q index
  cases c with
  | mapd deviceId ittAddr size valid =>
    obtain ⟨hd,halign,hitt,h1,h32⟩ := h
    obtain ⟨hop,hd⟩ := @field_device 0x08 deviceId (by decide) hd
    obtain ⟨haddr,hv⟩ := field_itt halign hitt valid
    rw [Call.stores,itsMapd,hq,decode]
    simp only [write_cons,write_nil,update_slot,Nat.reduceEqDiff,reduceIte,reduceCtorEq,hop,hd,
      field_size h1 h32,haddr,hv,Call.command]
    rfl
  | mapc collectionId targetIndex =>
    have hop : field 0x09 0 8 = 9 := by decide
    obtain ⟨hicid,hrd,hv⟩ := field_mapc h.1 h.2
    rw [Call.stores,itsMapc,hq,decode]
    simp only [and_low16 collectionId h.1,write_cons,write_nil,update_slot,reduceIte,
      reduceCtorEq,hop,hicid,hrd,hv,Call.command,decide_true]
  | mapti deviceId eventId pIntid collId =>
    obtain ⟨hop,hd⟩ := @field_device 0x0A deviceId (by decide) h.1
    obtain ⟨hev,hp⟩ := field_events eventId pIntid
    rw [Call.stores,itsMapti,hq,decode]
    simp only [write_cons,write_nil,update_slot,Nat.reduceEqDiff,reduceIte,reduceCtorEq,hop,hd,
      hev,hp,and_low16 collId h.2,field_icid h.2,Call.command]
    rfl
  | sync targetIndex =>
    have hop : field 0x05 0 8 = 5 := by decide
    rw [Call.stores,itsSync,hq,decode]
    simp only [write_cons,write_nil,update_slot,reduceIte,reduceCtorEq,hop,field_target h,
      Call.command]
  | int deviceId eventId =>
    obtain ⟨hop,hd,he⟩ := @deviceEvent_fields 0x03 deviceId (by decide) h q' index eventId
    rw [Call.stores,itsInt,hq,decode]
    simp only [hop,hd,he,Call.command]
    rfl
  | inv deviceId eventId =>
    obtain ⟨hop,hd,he⟩ := @deviceEvent_fields 0x0C deviceId (by decide) h q' index eventId
    rw [Call.stores,itsInv,hq,decode]
    simp only [hop,hd,he,Call.command]
    rfl
  | discard deviceId eventId =>
    obtain ⟨hop,hd,he⟩ := @deviceEvent_fields 0x0F deviceId (by decide) h q' index eventId
    rw [Call.stores,itsDiscard,hq,decode]
    simp only [hop,hd,he,Call.command]
    rfl
  | clear deviceId eventId =>
    obtain ⟨hop,hd,he⟩ := @deviceEvent_fields 0x04 deviceId (by decide) h q' index eventId
    rw [Call.stores,itsClear,hq,decode]
    simp only [hop,hd,he,Call.command]
    rfl
  | invall collectionId =>
    have hop : field 0x0D 0 8 = 13 := by decide
    rw [Call.stores,itsInvall,hq,decode]
    simp only [write_cons,write_nil,update_slot,reduceIte,reduceCtorEq,hop,field_icid h,
      Call.command]
  | movall rdBase rdTarget =>
    have hop : field 0x0E 0 8 = 14 := by decide
    rw [Call.stores,itsMovall,hq',decode]
    simp only [write_cons,write_nil,update_slot,Nat.reduceEqDiff,reduceIte,reduceCtorEq,hop,
      field_target h.1,field_target h.2,Call.command]
  | movi deviceId eventId collectionId =>
    obtain ⟨hop,hd⟩ := @field_device 0x01 deviceId (by decide) h.1
    rw [Call.stores,itsMovi,hq',decode]
    simp only [deviceEvent,List.cons_append,List.nil_append,write_cons,write_nil,update_slot,
      Nat.reduceEqDiff,reduceIte,reduceCtorEq,hop,hd,field_event,field_icid h.2,Call.command]
    rfl

def gitsCbaserSize (n : Word) : Word := n - 1
def gitsCbaserFlags : Word :=
  gitsCbaserSize 1 ||| (1 : Word) <<< 10 ||| (7 : Word) <<< 53 ||| (7 : Word) <<< 59 |||
    (1 : Word) <<< 63

/-- The queue, cmd_offset, the registers of the ITS and the rest of the call under way.
`issued` and `consumed` are what has been called and what the ITS has read so far. -/
structure Ring where
  queue : Nat → Word
  cmdOffset : BitVec 32
  cbaser : Word
  cwriter : Word
  creadr : Word
  code : List Stmt
  issued : List Call
  consumed : List (Option Command)

/-- The stores of gic_its_prepare to the command queue registers, where `queuePa` is the
physical address of the queue. A store to GITS_CBASER clears GITS_CREADR. -/
def gicItsPrepare (queuePa : Word) (s : Ring) : Ring :=
  { s with cbaser := queuePa ||| gitsCbaserFlags, creadr := 0, cwriter := 0 }

/-- The size of the queue is in the low byte of GITS_CBASER, in pages of 4 KB. -/
def queueBytes (cbaser : Word) : Nat := 4096 * (cbaser.toNat % 256 + 1)

def driverStep (s : Ring) : Ring :=
  match s.code with
  | [] => s
  | .store p :: code => { s with queue := Function.update s.queue p.1 p.2, code := code }
  | .advance :: code =>
      { s with cmdOffset := BitVec.ofNat 32 ((s.cmdOffset.toNat + 32) % 4096), code := code }
  | .publish :: code => { s with cwriter := s.cmdOffset.setWidth 64, code := code }
  | .wait :: code => if s.creadr = s.cmdOffset.setWidth 64 then { s with code := code } else s

/-- The ITS reads a slot of 32 bytes, unless it has come to GITS_CWRITER. -/
def itsStep (s : Ring) : Ring :=
  if s.creadr = s.cwriter then s
  else
    { s with
      consumed := s.consumed ++ [decode fun j => s.queue (s.creadr.toNat / 8 + j)]
      creadr := BitVec.ofNat 64 ((s.creadr.toNat + 32) % queueBytes s.cbaser) }

inductive Event where
  | call (c : Call)
  | driver
  | its

/-- A call begins when the one before it has returned. -/
def step (s : Ring) : Event → Ring
  | .call c =>
      match s.code with
      | [] =>
        { s with
          code := (c.stores (s.cmdOffset.toNat / 8)).map .store ++ [.advance,.publish,.wait]
          issued := s.issued ++ [c] }
      | _ => s
  | .driver => driverStep s
  | .its => itsStep s

def InRange (_ : Ring) : Event → Prop
  | .call c => c.InRange
  | _ => True

instance (s : Ring) : (e : Event) → Decidable (InRange s e)
  | .call c => inferInstanceAs (Decidable c.InRange)
  | .its | .driver => inferInstanceAs (Decidable True)

structure Slot (off : Nat) : Prop where
  aligned : off % 32 = 0
  inside : off < 4096

def nextSlot (off : Nat) : Nat := (off + 32) % 4096

def executed (cs : List Call) : List (Option Command) := cs.map fun c => some c.command

/-- The registers and cmd_offset, when the ITS is to read from `r` to `w`. -/
structure At (s : Ring) (off r w : Nat) : Prop where
  size : queueBytes s.cbaser = 4096
  cmdOffset : s.cmdOffset = BitVec.ofNat 32 off
  creadr : s.creadr = BitVec.ofNat 64 r
  cwriter : s.cwriter = BitVec.ofNat 64 w

/-- The statements of a call one by one, with what the ITS has read up to there. -/
inductive Phase (s : Ring) : Prop
  | idle (off : Nat) (ho : Slot off) (ha : At s off off off) (hcode : s.code = [])
      (hread : s.consumed = executed s.issued)
  | writing (off : Nat) (ho : Slot off) (ha : At s off off off) (cs : List Call) (c : Call)
      (hc : c.InRange) (q : Nat → Word) (l : List Store)
      (hcode : s.code = l.map .store ++ [.advance,.publish,.wait])
      (hqueue : write s.queue l = write q (c.stores (off / 8)))
      (hissued : s.issued = cs ++ [c]) (hread : s.consumed = executed cs)
  | advanced (off : Nat) (ho : Slot off) (ha : At s (nextSlot off) off off) (cs : List Call)
      (c : Call) (hcode : s.code = [.publish,.wait])
      (hslot : decode (fun j => s.queue (off / 8 + j)) = some c.command)
      (hissued : s.issued = cs ++ [c]) (hread : s.consumed = executed cs)
  | published (off : Nat) (ho : Slot off) (ha : At s (nextSlot off) off (nextSlot off))
      (cs : List Call) (c : Call) (hcode : s.code = [.wait])
      (hslot : decode (fun j => s.queue (off / 8 + j)) = some c.command)
      (hissued : s.issued = cs ++ [c]) (hread : s.consumed = executed cs)
  | drained (off : Nat) (ho : Slot off) (ha : At s off off off) (hcode : s.code = [.wait])
      (hread : s.consumed = executed s.issued)

theorem Slot.next {off : Nat} (h : Slot off) : Slot (nextSlot off) := by
  have := h.aligned
  have := h.inside
  constructor <;> unfold nextSlot <;> omega

theorem Slot.next_ne {off : Nat} (h : Slot off) : off ≠ nextSlot off := by
  have := h.aligned
  have := h.inside
  unfold nextSlot
  omega

theorem ofNat_inj {m n : Nat} (hm : m < 4096) (hn : n < 4096)
    (h : BitVec.ofNat 64 m = BitVec.ofNat 64 n) : m = n := by
  have := congrArg BitVec.toNat h
  simp only [BitVec.toNat_ofNat] at this
  omega

theorem setWidth_ofNat {n : Nat} (hn : n < 4096) :
    (BitVec.ofNat 32 n).setWidth 64 = BitVec.ofNat 64 n := by
  apply BitVec.eq_of_toNat_eq
  rw [BitVec.toNat_setWidth,BitVec.toNat_ofNat,BitVec.toNat_ofNat]
  omega

theorem itsStep_idle {s : Ring} {off r : Nat} (h : At s off r r) : itsStep s = s := by
  rw [itsStep,if_pos (h.creadr.trans h.cwriter.symm)]

theorem itsStep_slot {s : Ring} {off : Nat} (ho : Slot off)
    (h : At s (nextSlot off) off (nextSlot off)) :
    itsStep s = { s with
      consumed := s.consumed ++ [decode fun j => s.queue (off / 8 + j)]
      creadr := BitVec.ofNat 64 (nextSlot off) } := by
  have hne : s.creadr ≠ s.cwriter := by
    rw [h.creadr,h.cwriter]
    exact fun heq => ho.next_ne (ofNat_inj ho.inside ho.next.inside heq)
  have hr : (BitVec.ofNat 64 off).toNat = off := by
    have := ho.inside
    rw [BitVec.toNat_ofNat]
    omega
  rw [itsStep,if_neg hne,h.creadr,h.size,hr,nextSlot]

theorem Phase.its {s : Ring} (h : Phase s) : Phase (itsStep s) := by
  cases h with
  | idle off ho ha hcode hread =>
    rw [itsStep_idle ha]
    exact .idle off ho ha hcode hread
  | writing off ho ha cs c hc q l hcode hqueue hissued hread =>
    rw [itsStep_idle ha]
    exact .writing off ho ha cs c hc q l hcode hqueue hissued hread
  | advanced off ho ha cs c hcode hslot hissued hread =>
    have hs : itsStep s = s := by rw [itsStep,if_pos (ha.creadr.trans ha.cwriter.symm)]
    rw [hs]
    exact .advanced off ho ha cs c hcode hslot hissued hread
  | published off ho ha cs c hcode hslot hissued hread =>
    rw [itsStep_slot ho ha]
    refine .drained (nextSlot off) ho.next ⟨ha.size,ha.cmdOffset,rfl,ha.cwriter⟩ hcode ?_
    simp only [hread,hslot,hissued,executed,List.map_append,List.map_cons,List.map_nil]
  | drained off ho ha hcode hread =>
    rw [itsStep_idle ha]
    exact .drained off ho ha hcode hread

theorem Phase.call {s : Ring} (h : Phase s) {c : Call} (hc : c.InRange) :
    Phase (step s (.call c)) := by
  cases hcode : s.code with
  | cons stmt code =>
    have hs : step s (.call c) = s := by simp only [step,hcode]
    rw [hs]
    exact h
  | nil =>
    cases h with
    | idle off ho ha _ hread =>
      have hoff : s.cmdOffset.toNat = off := by
        have := ho.inside
        rw [ha.cmdOffset,BitVec.toNat_ofNat]
        omega
      simp only [step,hcode,hoff]
      exact .writing off ho ⟨ha.size,ha.cmdOffset,ha.creadr,ha.cwriter⟩ s.issued c hc s.queue
        (c.stores (off / 8)) rfl rfl rfl hread
    | writing off ho ha cs c hc q l hcode' => simp [hcode'] at hcode
    | advanced off ho ha cs c hcode' => simp [hcode'] at hcode
    | published off ho ha cs c hcode' => simp [hcode'] at hcode
    | drained off ho ha hcode' => simp [hcode'] at hcode

theorem advance_ofNat {off : Nat} (ho : Slot off) :
    BitVec.ofNat 32 (((BitVec.ofNat 32 off).toNat + 32) % 4096) =
      BitVec.ofNat 32 (nextSlot off) := by
  have := ho.inside
  rw [BitVec.toNat_ofNat,nextSlot,Nat.mod_eq_of_lt (a := off) (by omega)]

theorem Phase.driver {s : Ring} (h : Phase s) : Phase (driverStep s) := by
  cases h with
  | idle off ho ha hcode hread =>
    have hs : driverStep s = s := by simp only [driverStep,hcode]
    rw [hs]
    exact .idle off ho ha hcode hread
  | writing off ho ha cs c hc q l hcode hqueue hissued hread =>
    cases l with
    | nil =>
      -- All stores are done: the slot holds the command before cmd_offset moves on.
      have hslot := decode_stores hc q (off / 8)
      simp only [← hqueue,write_nil] at hslot
      simp only [driverStep,hcode,List.map_nil,List.nil_append]
      refine .advanced off ho ⟨ha.size,?_,ha.creadr,ha.cwriter⟩ cs c rfl hslot hissued hread
      simp only [ha.cmdOffset]
      exact advance_ofNat ho
    | cons p l =>
      simp only [driverStep,hcode,List.map_cons,List.cons_append]
      exact .writing off ho ⟨ha.size,ha.cmdOffset,ha.creadr,ha.cwriter⟩ cs c hc q l rfl hqueue
        hissued hread
  | advanced off ho ha cs c hcode hslot hissued hread =>
    simp only [driverStep,hcode]
    refine .published off ho ⟨ha.size,ha.cmdOffset,ha.creadr,?_⟩ cs c rfl hslot hissued hread
    simp only [ha.cmdOffset]
    exact setWidth_ofNat ho.next.inside
  | published off ho ha cs c hcode hslot hissued hread =>
    have hne : s.creadr ≠ s.cmdOffset.setWidth 64 := by
      rw [ha.creadr,ha.cmdOffset,setWidth_ofNat ho.next.inside]
      exact fun heq => ho.next_ne (ofNat_inj ho.inside ho.next.inside heq)
    simp only [driverStep,hcode,if_neg hne]
    exact .published off ho ha cs c hcode hslot hissued hread
  | drained off ho ha hcode hread =>
    have heq : s.creadr = s.cmdOffset.setWidth 64 := by
      rw [ha.creadr,ha.cmdOffset,setWidth_ofNat ho.inside]
    simp only [driverStep,hcode,if_pos heq]
    exact .idle off ho ⟨ha.size,ha.cmdOffset,ha.creadr,ha.cwriter⟩ rfl hread

theorem Phase.keeps {s : Ring} (h : Phase s) (e : Event) (he : InRange s e) :
    Phase (step s e) := by
  cases e with
  | call c => exact h.call he
  | driver => exact h.driver
  | its => exact h.its

/-- Between two statements of a call the ITS may move; the call then comes one statement
closer to its end. -/
theorem Phase.round {s : Ring} (h : Phase s) (hne : s.code ≠ []) :
    (driverStep (itsStep s)).code.length < s.code.length ∧
      (driverStep (itsStep s)).issued = s.issued := by
  cases h with
  | idle off ho ha hcode => exact absurd hcode hne
  | writing off ho ha cs c hc q l hcode =>
    rw [itsStep_idle ha]
    cases l <;> simp [driverStep,hcode]
  | advanced off ho ha cs c hcode =>
    have hs : itsStep s = s := by rw [itsStep,if_pos (ha.creadr.trans ha.cwriter.symm)]
    simp [hs,driverStep,hcode]
  | published off ho ha cs c hcode =>
    have heq : BitVec.ofNat 64 (nextSlot off) = s.cmdOffset.setWidth 64 := by
      rw [ha.cmdOffset,setWidth_ofNat ho.next.inside]
    simp [itsStep_slot ho ha,driverStep,hcode,heq]
  | drained off ho ha hcode =>
    have heq : s.creadr = s.cmdOffset.setWidth 64 := by
      rw [ha.creadr,ha.cmdOffset,setWidth_ofNat ho.inside]
    simp [itsStep_idle ha,driverStep,hcode,heq]

theorem Phase.returns {s : Ring} (h : Phase s) :
    ∃ evs, (∀ e ∈ evs, e = .its ∨ e = .driver) ∧ Phase (exec step s evs) ∧
      (exec step s evs).code = [] ∧ (exec step s evs).issued = s.issued := by
  induction hn : s.code.length using Nat.strongRecOn generalizing s with
  | ind n ih =>
    by_cases hcode : s.code = []
    · exact ⟨[],by simp,h,hcode,rfl⟩
    · obtain ⟨hlt,hissued⟩ := h.round hcode
      obtain ⟨evs,hevs,hp,hret,heq⟩ := ih _ (hn ▸ hlt) h.its.driver rfl
      refine ⟨.its :: .driver :: evs,?_,hp,hret,heq.trans hissued⟩
      simpa using hevs

theorem Phase.consumed {s : Ring} (h : Phase s) :
    (s.code = [] → s.consumed = executed s.issued) ∧ s.consumed <+: executed s.issued ∧
      s.issued.length ≤ s.consumed.length + 1 := by
  have hdone : ∀ {c : Call} {cs : List Call}, s.issued = cs ++ [c] → s.consumed = executed cs →
      s.consumed <+: executed s.issued ∧ s.issued.length ≤ s.consumed.length + 1 := by
    intro c cs hissued hread
    refine ⟨⟨[some c.command],?_⟩,?_⟩
    · simp [hissued,hread,executed]
    · simp [hissued,hread,executed]
  have hall : s.consumed = executed s.issued → s.consumed <+: executed s.issued ∧
      s.issued.length ≤ s.consumed.length + 1 := by
    intro hread
    refine ⟨⟨[],by simp [hread]⟩,?_⟩
    simp [hread,executed]
  cases h with
  | idle off ho ha hcode hread => exact ⟨fun _ => hread,hall hread⟩
  | writing off ho ha cs c hc q l hcode hqueue hissued hread =>
    exact ⟨fun h => absurd h (by simp [hcode]),hdone hissued hread⟩
  | advanced off ho ha cs c hcode hslot hissued hread =>
    exact ⟨fun h => absurd h (by simp [hcode]),hdone hissued hread⟩
  | published off ho ha cs c hcode hslot hissued hread =>
    exact ⟨fun h => absurd h (by simp [hcode]),hdone hissued hread⟩
  | drained off ho ha hcode hread => exact ⟨fun _ => hread,hall hread⟩

theorem queueBytes_gicItsPrepare {queuePa : Word} (h : queuePa.toNat % 65536 = 0) :
    queueBytes (queuePa ||| gitsCbaserFlags) = 4096 := by
  have hlow : (queuePa ||| gitsCbaserFlags).toNat % 2 ^ 8 = 0 := by
    have hf : gitsCbaserFlags.toNat % 2 ^ 8 = 0 := by decide
    have hq : queuePa.toNat % 2 ^ 8 = 0 := by omega
    rw [BitVec.toNat_or,Nat.or_mod_two_pow,hf,hq]
    rfl
  rw [queueBytes]
  omega

structure Prepared (s : Ring) : Prop where
  offset : s.cmdOffset = 0
  code : s.code = []
  issued : s.issued = []
  consumed : s.consumed = []

theorem Prepared.phase {s : Ring} (h : Prepared s) {queuePa : Word}
    (hpa : queuePa.toNat % 65536 = 0) : Phase (gicItsPrepare queuePa s) := by
  refine .idle 0 ⟨rfl,by decide⟩ ⟨queueBytes_gicItsPrepare hpa,h.offset,rfl,rfl⟩ h.code ?_
  exact h.consumed.trans (by rw [gicItsPrepare,h.issued]; rfl)

/-- After gic_its_prepare the ITS executes the commands that have been issued, in order:
all of them when no call is under way, all but the last while one is. -/
theorem its_executes_issued {s : Ring} (h : Prepared s) {queuePa : Word}
    (hpa : queuePa.toNat % 65536 = 0) {evs : List Event}
    (hevs : Along step InRange (gicItsPrepare queuePa s) evs) :
    let t := exec step (gicItsPrepare queuePa s) evs
    (t.code = [] → t.consumed = executed t.issued) ∧ t.consumed <+: executed t.issued ∧
      t.issued.length ≤ t.consumed.length + 1 ∧
      ∃ evs', (∀ e ∈ evs', e = .its ∨ e = .driver) ∧
        (exec step t evs').code = [] ∧ (exec step t evs').issued = t.issued ∧
        (exec step t evs').consumed = executed t.issued := by
  intro t
  have ht : Phase t := exec_invariant (fun _ e hs he => hs.keeps e he) (h.phase hpa) hevs
  obtain ⟨hall,hsome,hlength⟩ := ht.consumed
  obtain ⟨evs',hevs',hp,hret,hissued⟩ := ht.returns
  exact ⟨hall,hsome,hlength,evs',hevs',hret,hissued,hissued ▸ hp.consumed.1 hret⟩

/-- A queue full of old words. -/
def stale : Ring := ⟨fun _ => 0xFFFFFFFFFFFFFFFF,0,0,0,0,[],[],[]⟩

/-- A call whose last statement is turned once before the ITS reads the command. -/
def issueRun (c : Call) : List Event :=
  .call c :: (List.replicate ((c.stores 0).length + 3) .driver ++ [.its,.driver])

/-- 130 commands for a queue of 128. -/
def wrapRun : List Event :=
  (List.range 65).flatMap fun n =>
    issueRun (.mapti 8 (BitVec.ofNat 32 n) (BitVec.ofNat 32 (8192 + n)) 1) ++ issueRun (.sync 2)

theorem its_executes_issued_wrap :
    let t := exec step (gicItsPrepare 0x40080000 stale) wrapRun
    t.issued.length = 130 ∧ t.cmdOffset = 64 ∧ t.consumed = executed t.issued := by
  intro t
  have hrange : Along step InRange (gicItsPrepare 0x40080000 stale) wrapRun := by
    decide +kernel
  obtain ⟨hidle,hlength,hoffset⟩ :
      t.code = [] ∧ t.issued.length = 130 ∧ t.cmdOffset = 64 := by
    decide +kernel
  exact ⟨hlength,hoffset,
    (@its_executes_issued stale ⟨rfl,rfl,rfl,rfl⟩ 0x40080000 (by decide) wrapRun hrange).1 hidle⟩

end Arm64.Its

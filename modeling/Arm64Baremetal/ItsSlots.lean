import Arm64Baremetal.KernelIts

set_option autoImplicit false

namespace Arm64.Its
open Runs

/-- command_queue with what the linker places behind it, and cmd_offset. -/
structure Slots where
  mem : Nat → Word
  cmdOffset : BitVec 32

def Slots.index (s : Slots) : Nat := s.cmdOffset.toNat / 8

/-- A call of one of the functions, up to its barrier. -/
def Slots.call (s : Slots) (c : Call) : Slots where
  mem := write s.mem (c.stores s.index)
  cmdOffset := BitVec.ofNat 32 ((s.cmdOffset.toNat + 32) % 4096)

/-- its_movall and its_movi clear with mem_zero. -/
def Call.clearsQueue : Call → Bool
  | .movall _ _ | .movi _ _ _ => true
  | _ => false

/-- The position is that of a slot, and the call stores in its four words and nowhere else. -/
structure OwnSlot (s : Slots) (c : Call) : Prop where
  position : s.cmdOffset.toNat % 32 = 0 ∧ s.cmdOffset.toNat < 4096
  inside : ∀ i, s.index ≤ i → i < s.index + 4 → i < 512
  stores : ∀ p ∈ c.stores s.index, s.index ≤ p.1 ∧ p.1 < s.index + 4
  rest : ∀ i, i < s.index ∨ s.index + 4 ≤ i → (s.call c).mem i = s.mem i

section Machine

theorem driver_stores (l : List Store) (code : List Stmt) (s : Ring) :
    driverStep^[l.length] { s with code := l.map .store ++ code } =
      { s with queue := write s.queue l, code := code } := by
  induction l generalizing s with
  | nil => rfl
  | cons p l ih => exact ih { s with queue := Function.update s.queue p.1 p.2 }

/-- A call of the ring comes to its barrier with the queue and cmd_offset of `Slots.call`. -/
theorem driver_call {s : Ring} (h : s.code = []) (c : Call) :
    let t := Slots.call ⟨s.queue,s.cmdOffset⟩ c
    driverStep^[(c.stores (s.cmdOffset.toNat / 8)).length + 1] (step s (.call c)) =
      { s with
        queue := t.mem, cmdOffset := t.cmdOffset, code := [.publish,.wait]
        issued := s.issued ++ [c] } := by
  intro t
  have hcall : step s (.call c) = { s with
      code := (c.stores (s.cmdOffset.toNat / 8)).map .store ++ [.advance,.publish,.wait]
      issued := s.issued ++ [c] } := by
    simp only [step,h]
  have hstores := driver_stores (c.stores (s.cmdOffset.toNat / 8)) [.advance,.publish,.wait]
    { s with issued := s.issued ++ [c] }
  rw [Function.iterate_succ_apply',hcall,hstores]
  rfl

end Machine

theorem write_of_notMem {l : List Store} {i : Nat} (h : ∀ p ∈ l, p.1 ≠ i) (q : Nat → Word) :
    write q l i = q i := by
  induction l generalizing q with
  | nil => rfl
  | cons p l ih =>
    have hi := h p List.mem_cons_self
    have hrest := ih (fun p' hp => h p' (List.mem_cons_of_mem p hp)) (Function.update q p.1 p.2)
    exact hrest.trans (Function.update_of_ne (Ne.symm hi) p.2 q)

theorem mem_zeroSlot {index : Nat} {rest : List Store} {p : Store} :
    p ∈ zeroSlot index rest ↔ (∃ i < 4, p = (index + i,0)) ∨ p ∈ rest := by
  simp [zeroSlot,@eq_comm _ _ p]

theorem zeroSlot_inside {index : Nat} {rest : List Store}
    (h : ∀ p ∈ rest, index ≤ p.1 ∧ p.1 < index + 4) :
    ∀ p ∈ zeroSlot index rest, index ≤ p.1 ∧ p.1 < index + 4 := by
  intro p hp
  rcases mem_zeroSlot.mp hp with ⟨i,hi,rfl⟩ | hp
  · exact ⟨Nat.le_add_right index i,Nat.add_lt_add_left hi index⟩
  · exact h p hp

theorem deviceEvent_inside {index : Nat} {opcode deviceId : Word} {eventId : BitVec 32} :
    ∀ p ∈ deviceEvent index opcode deviceId eventId, index ≤ p.1 ∧ p.1 < index + 4 := by
  simp [deviceEvent]

theorem stores_inside {c : Call} (h : c.clearsQueue = false) (index : Nat) :
    ∀ p ∈ c.stores index, index ≤ p.1 ∧ p.1 < index + 4 := by
  cases c with
  | mapd deviceId ittAddr size valid => exact zeroSlot_inside (by simp)
  | mapc collectionId targetIndex => exact zeroSlot_inside (by simp)
  | mapti deviceId eventId pIntid collId => exact zeroSlot_inside (by simp)
  | sync targetIndex => exact zeroSlot_inside (by simp)
  | int deviceId eventId => exact zeroSlot_inside deviceEvent_inside
  | inv deviceId eventId => exact zeroSlot_inside deviceEvent_inside
  | discard deviceId eventId => exact zeroSlot_inside deviceEvent_inside
  | clear deviceId eventId => exact zeroSlot_inside deviceEvent_inside
  | invall collectionId => exact zeroSlot_inside (by simp)
  | movall rdBase rdTarget => cases h
  | movi deviceId eventId collectionId => cases h

theorem zeroQueue_outside (index : Nat) (rest : List Store) :
    (index + 514,0) ∈ zeroQueue index rest := by
  refine List.mem_append_left rest (List.mem_flatMap.mpr ⟨3,by simp,?_⟩)
  exact List.mem_map.mpr ⟨511,by simp,rfl⟩

/-- mem_zero of the whole size, from the fourth word of the slot on, comes to an object behind
the queue. -/
theorem stores_outside {c : Call} (h : c.clearsQueue = true) (index : Nat) :
    (index + 514,0) ∈ c.stores index := by
  cases c with
  | movall rdBase rdTarget => exact zeroQueue_outside index _
  | movi deviceId eventId collectionId => exact zeroQueue_outside index _
  | _ => cases h

theorem Slot.call {s : Slots} (h : Slot s.cmdOffset.toNat) (c : Call) :
    Slot (s.call c).cmdOffset.toNat := by
  have hnext : (s.call c).cmdOffset.toNat = nextSlot s.cmdOffset.toNat := by
    have := h.next.inside
    rw [Slots.call,BitVec.toNat_ofNat]
    exact Nat.mod_eq_of_lt (by omega)
  rw [hnext]
  exact h.next

/-- Wherever the calls so far have left cmd_offset, a command is stored in its slot alone if and
only if its function does not clear with mem_zero. -/
theorem own_slot_iff (mem : Nat → Word) (cs : List Call) (c : Call) :
    OwnSlot (exec Slots.call ⟨mem,0⟩ cs) c ↔ c.clearsQueue = false := by
  have hstart : Slot 0 := ⟨rfl,by decide⟩
  have hslot : Slot (exec Slots.call ⟨mem,0⟩ cs).cmdOffset.toNat :=
    @exec_keeps _ _ Slots.call (fun s => Slot s.cmdOffset.toNat) (fun _ c h => h.call c) ⟨mem,0⟩
      hstart cs
  generalize exec Slots.call ⟨mem,0⟩ cs = s at hslot
  constructor
  · intro h
    by_contra hc
    have houtside := (h.stores _ (stores_outside ((Bool.not_eq_false _).mp hc) s.index)).2
    simp only at houtside
    omega
  · intro hc
    have hstores := stores_inside hc s.index
    have haligned := hslot.aligned
    have hinside := hslot.inside
    refine ⟨⟨haligned,hinside⟩,fun i _ hi => ?_,hstores,fun i hi => ?_⟩
    · unfold Slots.index at hi
      omega
    · refine write_of_notMem (fun p hp heq => ?_) s.mem
      have := hstores p hp
      omega

/-- The first its_movall clears the object behind the queue. -/
theorem movall_overruns :
    ¬ OwnSlot (exec Slots.call ⟨fun _ => 1,0⟩ []) (.movall 0 0) ∧
      (Slots.call ⟨fun _ => 1,0⟩ (.movall 0 0)).mem 512 ≠ 1 := by
  have hzero : (Slots.call ⟨fun _ => 1,0⟩ (.movall 0 0)).mem 512 ≠ 1 := by decide +kernel
  exact ⟨fun h => hzero (h.rest 512 (.inr (by decide))),hzero⟩

end Arm64.Its

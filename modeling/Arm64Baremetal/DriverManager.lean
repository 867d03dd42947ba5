import Arm64Baremetal.GicConfig

set_option autoImplicit false

namespace Arm64.DriverManager
open Runs GicConfig

variable {η δ : Type}

def maxDrivers : Nat := 32
def defaultIrqPriority : BitVec 8 := 0x80

/-- driver_t. A null handler is `none`. -/
structure Driver (η δ : Type) where
  irqId : BitVec 32
  handler : Option η
  device : δ
  name : String
  deriving DecidableEq

structure Registry (η δ : Type) where
  drivers : List (Driver η δ)
  bounded : drivers.length ≤ maxDrivers

inductive Io where
  | printf (fmt : String) (name : Option String) (irq : Option (BitVec 32))
  deriving DecidableEq

structure Manager (η δ : Type) where
  registry : Registry η δ
  gicd : Gicd
  io : List Io

def driverManagerInit : Registry η δ := ⟨[],Nat.zero_le _⟩

def registerDriver (irq : BitVec 32) (handler : Option η) (device : δ) (name : String)
    (m : Manager η δ) : Int × Manager η δ :=
  if h : maxDrivers ≤ m.registry.drivers.length then
    (-1,{ m with io := .printf "[DRV] Error: Registry full!\n" none none :: m.io })
  else
    (0,{ m with
      registry := ⟨m.registry.drivers ++ [⟨irq,handler,device,name⟩],by
        rw [List.length_append,List.length_singleton]
        exact Nat.lt_of_not_le h⟩
      gicd := gicEnableSpi irq (gicRouteSpi irq 0 (gicConfSpi irq defaultIrqPriority 1 m.gicd))
      io := .printf "[DRV] Registered %s on IRQ %d\n" (some name) (some irq) :: m.io })

/-- The loop of dispatch_interrupt: the handler that is called, with its device. -/
def findHandler (irq : BitVec 32) : List (Driver η δ) → Option (η × δ)
  | [] => none
  | d :: ds =>
    if d.irqId = irq then
      match d.handler with
      | some handler => some (handler,d.device)
      | none => findHandler irq ds
    else findHandler irq ds

def dispatchInterrupt (irq : BitVec 32) (m : Manager η δ) : Option (η × δ) × Manager η δ :=
  match findHandler irq m.registry.drivers with
  | some p => (some p,m)
  | none =>
    (none,{ m with io := .printf "[DRV] Warning: No handler for IRQ %d\n" none (some irq) :: m.io })

def register (m : Manager η δ) (d : Driver η δ) : Int × Manager η δ :=
  registerDriver d.irqId d.handler d.device d.name m

def registered (gicd : Gicd) (ds : List (Driver η δ)) : Manager η δ :=
  exec (fun m d => (register m d).2) ⟨driverManagerInit,gicd,[]⟩ ds

def Dispatched (irq : BitVec 32) : Prop := 32 ≤ irq.toNat ∧ irq.toNat < 1020

/-- Each call that succeeds is reached by its interrupt from then on, and one that fails has
changed nothing. -/
structure Reachable (gicd : Gicd) (ds : List (Driver η δ)) : Prop where
  reached : ∀ before d later rest handler, ds = before ++ d :: (later ++ rest) →
    (register (registered gicd before) d).1 = 0 → d.handler = some handler → Dispatched d.irqId →
    (dispatchInterrupt d.irqId (registered gicd (before ++ d :: later))).1 = some (handler,d.device)
  refused : ∀ before d rest, ds = before ++ d :: rest →
    (register (registered gicd before) d).1 = -1 →
    let m := (register (registered gicd before) d).2
    m.registry = (registered gicd before).registry ∧ m.gicd = (registered gicd before).gicd

def Driver.usable (irq : BitVec 32) (d : Driver η δ) : Bool := d.irqId = irq ∧ d.handler.isSome

/-- The first usable entry for an interrupt, if there is one before a call for the same
interrupt, is for the same handler and device. -/
def FirstAgrees (ds : List (Driver η δ)) : Prop :=
  ∀ before d rest handler, ds = before ++ d :: rest → before.length < maxDrivers →
    d.handler = some handler → Dispatched d.irqId →
    ∀ first ∈ before.find? (Driver.usable d.irqId),
      first.handler = some handler ∧ first.device = d.device

section Registry
variable {gicd : Gicd} {m : Manager η δ} {d : Driver η δ} {ds : List (Driver η δ)}

theorem usable_iff {irq : BitVec 32} :
    d.usable irq = true ↔ d.irqId = irq ∧ ∃ handler, d.handler = some handler := by
  rw [Driver.usable,decide_eq_true_iff,Option.isSome_iff_exists]

theorem findHandler_eq (irq : BitVec 32) (ds : List (Driver η δ)) :
    findHandler irq ds = (ds.find? (Driver.usable irq)).bind fun d =>
      d.handler.map fun handler => (handler,d.device) := by
  induction ds with
  | nil => rfl
  | cons d ds ih =>
    rw [findHandler,ih]
    by_cases hirq : d.irqId = irq
    · cases hhandler : d.handler with
      | none =>
        have hskip : ¬ d.usable irq = true := by
          intro h
          obtain ⟨-,handler,hsome⟩ := usable_iff.mp h
          rw [hhandler] at hsome
          cases hsome
        rw [if_pos hirq,List.find?_cons_of_neg hskip]
      | some handler =>
        have htake : d.usable irq = true := usable_iff.mpr ⟨hirq,handler,hhandler⟩
        rw [if_pos hirq,List.find?_cons_of_pos htake,Option.bind_some,hhandler,Option.map_some]
    · have hskip : ¬ d.usable irq = true := fun h => hirq (usable_iff.mp h).1
      rw [if_neg hirq,List.find?_cons_of_neg hskip]

theorem dispatchInterrupt_fst (irq : BitVec 32) (m : Manager η δ) :
    (dispatchInterrupt irq m).1 = findHandler irq m.registry.drivers := by
  unfold dispatchInterrupt
  cases findHandler irq m.registry.drivers <;> rfl

theorem register_full (h : maxDrivers ≤ m.registry.drivers.length) : (register m d).1 = -1 ∧
    (register m d).2.registry = m.registry ∧ (register m d).2.gicd = m.gicd := by
  rw [register,registerDriver,dif_pos h]
  exact ⟨rfl,rfl,rfl⟩

theorem register_free (h : ¬ maxDrivers ≤ m.registry.drivers.length) : (register m d).1 = 0 ∧
    (register m d).2.registry.drivers = m.registry.drivers ++ [d] := by
  rw [register,registerDriver,dif_neg h]
  exact ⟨rfl,rfl⟩

theorem registered_snoc (gicd : Gicd) (ds : List (Driver η δ)) (d : Driver η δ) :
    registered gicd (ds ++ [d]) = (register (registered gicd ds) d).2 :=
  exec_snoc _ _ ds d

/-- The registry holds the first calls, as many as it has room for. -/
theorem registered_drivers (gicd : Gicd) (ds : List (Driver η δ)) :
    (registered gicd ds).registry.drivers = ds.take maxDrivers := by
  induction ds using List.reverseRecOn with
  | nil => rfl
  | append_singleton ds d ih =>
    have hlen : (registered gicd ds).registry.drivers.length = min maxDrivers ds.length := by
      rw [ih,List.length_take]
    rw [registered_snoc]
    by_cases hfull : maxDrivers ≤ ds.length
    · rw [(register_full (by omega)).2.1,ih,List.take_append_of_le_length hfull]
    · rw [(register_free (by omega)).2,ih,List.take_of_length_le (by omega),List.take_of_length_le]
      rw [List.length_append,List.length_singleton]
      omega

theorem register_ok (gicd : Gicd) (ds : List (Driver η δ)) (d : Driver η δ) :
    (register (registered gicd ds) d).1 = 0 ↔ ds.length < maxDrivers := by
  have hlen : (registered gicd ds).registry.drivers.length = min maxDrivers ds.length := by
    rw [registered_drivers,List.length_take]
  by_cases hfull : maxDrivers ≤ ds.length
  · rw [(register_full (by omega)).1]
    omega
  · rw [(register_free (by omega)).1]
    omega

theorem dispatch_after (gicd : Gicd) {before : List (Driver η δ)}
    (hroom : before.length < maxDrivers) {handler : η} (hd : d.handler = some handler)
    (later : List (Driver η δ)) :
    (dispatchInterrupt d.irqId (registered gicd (before ++ d :: later))).1 =
      ((before.find? (Driver.usable d.irqId)).getD d).handler.map fun handler =>
        (handler,((before.find? (Driver.usable d.irqId)).getD d).device) := by
  obtain ⟨room,hroom'⟩ := Nat.exists_eq_add_of_lt hroom
  have husable : d.usable d.irqId = true := usable_iff.mpr ⟨rfl,handler,hd⟩
  have htake : (before ++ d :: later).take maxDrivers = before ++ d :: later.take room := by
    have hcount : maxDrivers - before.length = room + 1 := by omega
    rw [List.take_append,List.take_of_length_le (Nat.le_of_lt hroom),hcount,List.take_succ_cons]
  rw [dispatchInterrupt_fst,registered_drivers,htake,findHandler_eq,List.find?_append,
    List.find?_cons_of_pos husable]
  cases before.find? (Driver.usable d.irqId) <;> rfl

/-- A registered driver is reached unless another driver has a handler for its interrupt in
front of it. -/
theorem registrations_reach_iff (gicd : Gicd) (ds : List (Driver η δ)) :
    Reachable gicd ds ↔ FirstAgrees ds := by
  constructor
  · intro h before d rest handler hds hroom hd hirq first hfirst
    have hok := (register_ok gicd before d).mpr hroom
    have hreach := h.reached before d [] rest handler hds hok hd hirq
    rw [dispatch_after gicd hroom hd,Option.mem_def.mp hfirst,Option.getD_some] at hreach
    obtain ⟨handler',hhandler,heq⟩ := Option.map_eq_some_iff.mp hreach
    obtain ⟨rfl,hdevice⟩ := Prod.mk.inj heq
    exact ⟨hhandler,hdevice⟩
  · intro h
    refine ⟨fun before d later rest handler hds hok hd hirq => ?_,fun before d rest hds hfail => ?_⟩
    · have hroom := (register_ok gicd before d).mp hok
      rw [dispatch_after gicd hroom hd]
      cases hfirst : before.find? (Driver.usable d.irqId) with
      | none => rw [Option.getD_none,hd,Option.map_some]
      | some first =>
        obtain ⟨hhandler,hdevice⟩ :=
          h before d (later ++ rest) handler hds hroom hd hirq first hfirst
        rw [Option.getD_some,hhandler,Option.map_some,hdevice]
    · by_cases hfull : maxDrivers ≤ (registered gicd before).registry.drivers.length
      · exact (register_full hfull).2
      · rw [(register_free hfull).1] at hfail
        exact absurd hfail (by decide)

end Registry

section Stores

def gicdBase : Nat := 0x08000000

/-- Physical addresses with a page in the kernel's tables: those of the distributor, the ITS, the
redistributors, the UART and the block device, and any in RAM. -/
def KernelMapped (pa : Nat) : Prop :=
  (gicdBase ≤ pa ∧ pa < gicdBase + 0x10000) ∨ (0x08080000 ≤ pa ∧ pa < 0x08120000) ∨
    (0x09000000 ≤ pa ∧ pa < 0x09001000) ∨ (0x0A000000 ≤ pa ∧ pa < 0x0A001000) ∨ 0x40000000 ≤ pa

def storesOf (irq : BitVec 32) : List (BitVec 32) :=
  [gicdIgroupr (interruptIndex irq),gicdIsenabler (interruptIndex irq),gicdIpriorityr irq,
    gicdIrouter irq]

/-- An irq that the distributor does not have makes the call fault, or store to devices: no call
that returns has stored to RAM. -/
theorem stores_in_devices {irq : BitVec 32}
    (h : ∀ offset ∈ storesOf irq, KernelMapped (gicdBase + offset.toNat)) :
    ∀ offset ∈ storesOf irq, gicdBase + offset.toNat < 0x40000000 := by
  have hindex := interruptIndex_toNat irq
  have hlt := irq.isLt
  simp only [storesOf,List.mem_cons,List.not_mem_nil,or_false,forall_eq_or_imp,forall_eq,
    KernelMapped,gicdBase,gicdIgroupr,gicdIsenabler,gicdIpriorityr,gicdIrouter,BitVec.toNat_add,
    BitVec.toNat_mul,BitVec.ofNat_eq_ofNat,BitVec.toNat_ofNat,hindex] at h ⊢
  omega

end Stores

/-- The second driver of an interrupt is registered, and is not the one that is called. -/
theorem second_driver_unreached :
    let first : Driver Nat Nat := ⟨48,some 1,10,"virtio-blk"⟩
    let second : Driver Nat Nat := ⟨48,some 2,20,"virtio-blk"⟩
    (register (registered zeroGic.gicd [first]) second).1 = 0 ∧
      (dispatchInterrupt 48 (registered zeroGic.gicd [first,second])).1 = some (1,10) ∧
      ¬ Reachable zeroGic.gicd [first,second] := by
  intro first second
  have hcalled : (dispatchInterrupt 48 (registered zeroGic.gicd [first,second])).1 =
      some (1,10) := by decide
  refine ⟨rfl,hcalled,fun h => ?_⟩
  have hreached := h.reached [first] second [] [] 2 rfl rfl rfl ⟨by decide,by decide⟩
  exact absurd (hcalled.symm.trans hreached) (by decide)

end Arm64.DriverManager

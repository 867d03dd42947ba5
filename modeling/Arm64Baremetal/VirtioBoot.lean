import Arm64Baremetal.VirtioBlk

set_option autoImplicit false

namespace Arm64.VirtioBlk
open Runs ByteMem

/-- The members of virtio_blk_dev_t that are pointers. NULL is `none`. -/
structure DevPointers where
  vring : Option Nat
  config : Option Nat
  deriving DecidableEq

/-- blk_dev is zero at the start, and stays so when virtio_blk_init returns early. -/
def DevPointers.null : DevPointers := ⟨none,none⟩

def virtioBlkAddress : Nat := 0x0A000000
def virtioRegDeviceConfig : Nat := 0x100

/-- `&blk_ring` and the configuration space, by their physical addresses. -/
def devPointers (l : Layout) : DevPointers :=
  ⟨some l.ring,some (virtioBlkAddress + virtioRegDeviceConfig)⟩

/-- The sizes and alignments of the members of struct virtio_virtq, a packed struct in which
`used` is aligned. -/
def virtqMembers : List (Nat × Nat) :=
  [(16 * 16,1),(2 + 2 + 2 * 16,1),(2 + 2 + 8 * 16,4096),(4,1),(8,1),(2,1)]

def availOffset : Nat := (offsets 0 virtqMembers).getD 1 0
def usedOffset : Nat := (offsets 0 virtqMembers).getD 2 0

def legacyAvail (size : Nat) : Nat := 16 * size
def legacyUsed (size : Nat) : Nat := (legacyAvail size + 2 * (3 + size) + 4095) / 4096 * 4096

/-- What the code does on the way that can go wrong. -/
inductive Access where
  | vring (p : Option Nat)
  | config (p : Option Nat)
  | rem (n d : Nat)
  | availRing (i : Nat)
  | queued (size : Nat)
  deriving DecidableEq

def Access.Safe : Access → Prop
  | .vring p | .config p => p ≠ none
  | .rem _ d => d ≠ 0
  | .availRing i => i < 16
  | .queued size => availOffset = legacyAvail size ∧ usedOffset = legacyUsed size

def virtioBlkFSizeMax : Nat := 1
def virtioBlkFSegMax : Nat := 2
def virtioBlkFBlkSize : Nat := 6

/-- A member of the configuration is printed if the device has its feature bit. -/
def printsConfig (p : DevPointers) (hostFeat : BitVec 32) (bit : Nat) : List Access :=
  if hostFeat &&& (1 : BitVec 32) <<< bit ≠ 0 then [.config p.config] else []

def virtioBlkGetInfo (p : DevPointers) (hostFeat : BitVec 32) : List Access :=
  printsConfig p hostFeat virtioBlkFBlkSize ++ printsConfig p hostFeat virtioBlkFSizeMax ++
    printsConfig p hostFeat virtioBlkFSegMax

/-- What a statement of virtio_blk_read_sector goes through. A request is queued when the device
is notified. -/
def Stmt.accesses (l : Layout) (p : DevPointers) (s : Blk) : Stmt → List Access
  | .store (a,_,_) => if l.ring ≤ a ∧ a < l.ring + 8192 then [.vring p.vring] else []
  | .ring =>
      let index := (availIndex l s.mem).toNat
      [.vring p.vring,.rem index s.actualQSize.toNat,.vring p.vring,
        .availRing (index % s.actualQSize.toNat)]
  | .bump | .poll | .takeUsed => [.vring p.vring]
  | .notify => [.queued s.regs.queueNum.toNat]
  | .copy _ | .ret => []

def bootPointers (l : Layout) (s : Blk) : DevPointers :=
  if (virtioBlkInit l s).1 = 0 then devPointers l else .null

/-- The state in which c_entry reads sector 0, whatever the result of virtio_blk_init. -/
def cEntry (l : Layout) (s : Blk) : Blk :=
  { (virtioBlkInit l s).2 with code := virtioBlkReadSector l 0 }

/-- On the boot path no access goes wrong: not in virtio_blk_get_info, and not in any run of
virtio_blk_read_sector with the device at work. -/
def BootSafe (l : Layout) (disk : Disk) (s : Blk) (hostFeat : BitVec 32) : Prop :=
  (∀ a ∈ virtioBlkGetInfo (bootPointers l s) hostFeat, a.Safe) ∧
    ∀ evs, let t := exec (step l disk) (cEntry l s) evs
      ∀ stmt ∈ t.code.head?, ∀ a ∈ stmt.accesses l (bootPointers l s) t, a.Safe

section Boot
variable {l : Layout} {disk : Disk} {s : Blk}

/-- The struct is the legacy layout for one size only. -/
theorem queued_safe (size : Nat) : (Access.queued size).Safe ↔ size = 16 := by
  have havail : availOffset = 256 := by decide
  have hused : usedOffset = 4096 := by decide
  rw [Access.Safe,havail,hused,legacyUsed,legacyAvail]
  omega

theorem virtioBlkInit_result : (virtioBlkInit l s).1 = 0 ↔
    s.regs.magic = 0x74726976 ∧ s.regs.deviceId = 2 := by
  by_cases hmagic : s.regs.magic ≠ 0x74726976
  · rw [virtioBlkInit,if_pos hmagic]
    exact ⟨fun h => absurd h Nat.one_ne_zero,fun h => absurd h.1 hmagic⟩
  · by_cases hdevice : s.regs.deviceId ≠ 2
    · rw [virtioBlkInit,if_neg hmagic,if_pos hdevice]
      exact ⟨fun h => absurd h (Nat.succ_ne_zero 1),fun h => absurd h.2 hdevice⟩
    · rw [virtioBlkInit,if_neg hmagic,if_neg hdevice]
      exact ⟨fun _ => ⟨not_not.mp hmagic,not_not.mp hdevice⟩,fun _ => rfl⟩

theorem virtioBlkInit_size (hok : (virtioBlkInit l s).1 = 0) :
    (virtioBlkInit l s).2.actualQSize = (virtioBlkInit l s).2.regs.queueNum ∧
      ((virtioBlkInit l s).2.regs.queueNum.toNat = 16 ↔ 16 ≤ s.regs.queueNumMax.toNat) := by
  rw [virtioBlkInit_ok hok]
  refine ⟨rfl,?_⟩
  dsimp only
  by_cases hq : s.regs.queueNumMax < 16
  · have hlt : s.regs.queueNumMax.toNat < 16 := hq
    rw [if_pos hq]
    omega
  · have hle : 16 ≤ s.regs.queueNumMax.toNat := Nat.le_of_not_lt hq
    rw [if_neg hq]
    exact ⟨fun _ => hle,fun _ => rfl⟩

theorem step_sizes (s : Blk) (e : Event) :
    (step l disk s e).regs = s.regs ∧ (step l disk s e).actualQSize = s.actualQSize := by
  cases e with
  | call sector buf =>
    dsimp only [step]
    split
    · exact ⟨rfl,rfl⟩
    · exact ⟨rfl,rfl⟩
  | driver => exact driverStep_sizes l s
  | device status k =>
    have hf := deviceStep_frame disk status k s
    exact ⟨hf.regs,hf.actualQSize⟩

theorem exec_sizes (s : Blk) (evs : List Event) :
    let t := exec (step l disk) s evs
    t.regs = s.regs ∧ t.actualQSize = s.actualQSize :=
  exec_keeps (I := fun t => t.regs = s.regs ∧ t.actualQSize = s.actualQSize)
    (fun t e ht => ⟨(step_sizes t e).1.trans ht.1,(step_sizes t e).2.trans ht.2⟩) ⟨rfl,rfl⟩ evs

theorem driverStep_code {stmt : Stmt} {code : List Stmt} (hcode : s.code = stmt :: code)
    (hpoll : stmt ≠ .poll) : (driverStep l s).code = code := by
  cases stmt with
  | poll => exact absurd rfl hpoll
  | _ => simp only [driverStep,hcode]

theorem exec_driver {done code : List Stmt} (hcode : s.code = done ++ code)
    (hpoll : .poll ∉ done) :
    (exec (step l disk) s (List.replicate done.length .driver)).code = code := by
  induction done generalizing s with
  | nil => exact hcode
  | cons stmt done ih =>
    refine ih ?_ fun h => hpoll (List.mem_cons_of_mem _ h)
    rw [step,driverStep_code hcode fun h => hpoll (h ▸ List.mem_cons_self)]
    rfl

theorem getInfo_safe (hostFeat : BitVec 32) :
    ∀ a ∈ virtioBlkGetInfo (devPointers l) hostFeat, a.Safe := by
  have hprints : ∀ bit, ∀ a ∈ printsConfig (devPointers l) hostFeat bit, a.Safe := by
    intro bit a ha
    unfold printsConfig at ha
    split at ha
    · rw [List.mem_singleton.mp ha]
      exact Option.some_ne_none _
    · cases ha
  intro a ha
  rcases List.mem_append.mp ha with ha | ha
  · rcases List.mem_append.mp ha with ha | ha
    · exact hprints _ a ha
    · exact hprints _ a ha
  · exact hprints _ a ha

theorem accesses_safe (hsize : s.actualQSize.toNat = 16) (hqueue : s.regs.queueNum.toNat = 16)
    (stmt : Stmt) : ∀ a ∈ stmt.accesses l (devPointers l) s, a.Safe := by
  have hvring : (Access.vring (devPointers l).vring).Safe := Option.some_ne_none _
  intro a ha
  cases stmt with
  | store p =>
    simp only [Stmt.accesses] at ha
    split at ha
    · rw [List.mem_singleton.mp ha]
      exact hvring
    · cases ha
  | ring =>
    have hmod : (availIndex l s.mem).toNat % 16 < 16 := Nat.mod_lt _ (by decide)
    simp only [Stmt.accesses,hsize,List.mem_cons,List.not_mem_nil,or_false] at ha
    rcases ha with rfl | rfl | rfl | rfl
    · exact hvring
    · exact (by decide : (16 : Nat) ≠ 0)
    · exact hvring
    · exact hmod
  | notify =>
    rw [Stmt.accesses,hqueue,List.mem_singleton] at ha
    rw [ha]
    exact (queued_safe 16).mpr rfl
  | bump | poll | takeUsed =>
    rw [List.mem_singleton.mp ha]
    exact hvring
  | copy i => cases ha
  | ret => cases ha

theorem readSector_null (hcode : s.code = virtioBlkReadSector l 0) :
    ∃ evs, let t := exec (step l disk) s evs
      ∃ stmt ∈ t.code.head?, ¬ ∀ a ∈ stmt.accesses l .null t, a.Safe := by
  have hstart : virtioBlkReadSector l 0 = ((prepare l 0).take 3).map .store ++
      .store (l.ring,8,l.req) :: (((prepare l 0).drop 4).map .store ++
        .ring :: .bump :: .notify :: .poll :: fetch 0) := rfl
  have hpoll : Stmt.poll ∉ ((prepare l 0).take 3).map .store := fun h => by
    obtain ⟨p,_,hp⟩ := List.mem_map.mp h
    cases hp
  have hreach := @exec_driver l disk s _ _ (hcode.trans hstart) hpoll
  refine ⟨_,.store (l.ring,8,l.req),by rw [hreach]; rfl,fun h => ?_⟩
  have hin : l.ring ≤ l.ring ∧ l.ring < l.ring + 8192 := by omega
  rw [Stmt.accesses,if_pos hin] at h
  exact h (.vring none) List.mem_cons_self rfl

theorem readSector_queued (hcode : s.code = virtioBlkReadSector l 0) (p : DevPointers)
    (h : ∀ evs, let t := exec (step l disk) s evs
      ∀ stmt ∈ t.code.head?, ∀ a ∈ stmt.accesses l p t, a.Safe) :
    s.regs.queueNum.toNat = 16 := by
  have hstart : virtioBlkReadSector l 0 =
      ((prepare l 0).map .store ++ [.ring,.bump]) ++ .notify :: .poll :: fetch 0 := rfl
  have hreach := @exec_driver l disk s _ _ (hcode.trans hstart) (by simp)
  have hsafe := h _ .notify (by rw [hreach]; rfl) _ List.mem_cons_self
  rwa [queued_safe,(exec_sizes s _).1] at hsafe

/-- Booting is safe with a block device that has a queue of 16 entries or more, and only then. -/
theorem boot_safe_iff (l : Layout) (disk : Disk) (s : Blk) (hostFeat : BitVec 32) :
    BootSafe l disk s hostFeat ↔
      s.regs.magic = 0x74726976 ∧ s.regs.deviceId = 2 ∧ 16 ≤ s.regs.queueNumMax.toNat := by
  constructor
  · rintro ⟨-,h⟩
    by_cases hok : (virtioBlkInit l s).1 = 0
    · obtain ⟨hmagic,hdevice⟩ := virtioBlkInit_result.mp hok
      have hqueued := readSector_queued rfl _ h
      exact ⟨hmagic,hdevice,(virtioBlkInit_size hok).2.mp hqueued⟩
    · rw [bootPointers,if_neg hok] at h
      obtain ⟨evs,stmt,hstmt,hwrong⟩ := @readSector_null l disk (cEntry l s) rfl
      exact absurd (h evs stmt hstmt) hwrong
  · rintro ⟨hmagic,hdevice,hmax⟩
    have hok := (@virtioBlkInit_result l s).mpr ⟨hmagic,hdevice⟩
    obtain ⟨hsame,hsize⟩ := virtioBlkInit_size hok
    have hqueue := hsize.mpr hmax
    rw [BootSafe,bootPointers,if_pos hok]
    refine ⟨getInfo_safe hostFeat,fun evs stmt _ => ?_⟩
    obtain ⟨hregs,hq⟩ := @exec_sizes l disk (cEntry l s) evs
    exact accesses_safe (by rw [hq]; exact hsame ▸ hqueue) (by rw [hregs]; exact hqueue) stmt

end Boot

/-- Without a block device, the descriptors are stored through a null pointer; with a queue of 8
entries, the device looks for avail elsewhere. -/
theorem boot_goes_wrong :
    ¬ BootSafe exampleLayout exampleDisk
        { exampleBlk with regs := { exampleBlk.regs with deviceId := 0 } } 0 ∧
      ¬ BootSafe exampleLayout exampleDisk
        { exampleBlk with regs := { exampleBlk.regs with queueNumMax := 8 } } 0 := by
  refine ⟨fun h => ?_,fun h => ?_⟩
  · have hnull := h.2 (List.replicate 3 .driver) (.store (exampleLayout.ring,8,exampleLayout.req))
      rfl (.vring none) (by decide)
    exact hnull rfl
  · have hqueued := h.2 (List.replicate 13 .driver) .notify rfl (.queued 8) (by decide)
    exact absurd ((queued_safe 8).mp hqueued) (by decide)

end Arm64.VirtioBlk

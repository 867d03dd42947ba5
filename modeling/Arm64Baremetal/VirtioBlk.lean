import Mathlib.Data.List.Range
import Arm64Baremetal.ByteMem
import Arm64Baremetal.Runs

/-!
The block driver of kernel_virtio_blk.c and a legacy virtio-mmio block device on one memory:
the driver by statements, the device by what it reads and the bytes it writes.
-/

set_option autoImplicit false

namespace Arm64.VirtioBlk
open Runs ByteMem

abbrev Disk := Nat → Byte

/-- The physical addresses of `req` and of blk_ring, two static objects of the driver. -/
structure Layout where
  req : Nat
  ring : Nat
  aligned : ring % 4096 = 0
  ring_end : ring + 8192 ≤ 2 ^ 44
  req_end : req + 529 ≤ 2 ^ 64
  apart : Separate req 529 ring 8192

/-- A statement of virtio_blk_read_sector. `copy i` is one turn of mem_copy. -/
inductive Stmt where
  | store (p : Nat × Nat × Nat)
  | ring
  | bump
  | notify
  | poll
  | copy (i : Nat)
  | takeUsed
  | ret
  deriving DecidableEq

structure Desc where
  addr : Nat
  len : Nat
  flags : Nat
  next : Nat
  deriving DecidableEq

/-- What the device is at: it has taken the head of a chain, it has read the chain, it has
some bytes left to write, it has written the used element. -/
inductive Job where
  | idle
  | taken (head : Nat)
  | chained (head : Nat) (ds : List Desc)
  | writing (head len : Nat) (sector : Nat) (status : Byte) (left : List (Nat × Byte))
  | ended (sector : Nat) (status : Byte)
  deriving DecidableEq

structure Regs where
  magic : BitVec 32
  deviceId : BitVec 32
  queueNumMax : BitVec 32
  status : BitVec 32
  pageSize : BitVec 32
  queueNum : BitVec 32
  queuePfn : BitVec 32

/-- Memory, virtio_blk_dev_t, the device with the indices it keeps to itself, and the call under
way. `called` are the sectors asked for, `served` the requests that the device has completed
with the status of each, `returned` what the calls have put into buf and returned. -/
structure Blk where
  mem : Mem
  actualQSize : BitVec 32
  lastUsedIdx : BitVec 16
  regs : Regs
  lastAvail : BitVec 16
  usedIdx : BitVec 16
  job : Job
  buf : Nat → Byte
  code : List Stmt
  called : List Nat
  served : List (Nat × Byte)
  returned : List (List Byte × Byte)

section Driver

variable (l : Layout)

/-- A store to the status register: zero resets the device. -/
def writeStatus (v : BitVec 32) (s : Blk) : Blk :=
  if v = 0 then
    { s with
      regs := { s.regs with status := 0, pageSize := 0, queueNum := 0, queuePfn := 0 }
      lastAvail := 0, usedIdx := 0, job := .idle }
  else { s with regs := { s.regs with status := v } }

/-- virtio_blk_init, without the page of the registers and the interrupt handler. -/
def virtioBlkInit (s : Blk) : Nat × Blk :=
  if s.regs.magic ≠ 0x74726976 then (1,s)
  else if s.regs.deviceId ≠ 2 then (2,s)
  else
    let s := writeStatus 3 (writeStatus 0 s)
    let q := if s.regs.queueNumMax < 16 then s.regs.queueNumMax else 16
    let s := { s with
      actualQSize := q
      regs := { s.regs with
        pageSize := 4096, queueNum := q, queuePfn := BitVec.ofNat 32 (l.ring / 2 ^ 12) } }
    (0,{ writeStatus (s.regs.status ||| 4) s with lastUsedIdx := 0 })

def availIndex (m : Mem) : BitVec 16 := BitVec.ofNat 16 (load m (l.ring + 258) 2)

def usedIndex (m : Mem) : BitVec 16 := BitVec.ofNat 16 (load m (l.ring + 4098) 2)

def prepare (sector : Nat) : List (Nat × Nat × Nat) :=
  [(l.req,4,0),(l.req + 8,8,sector),(l.req + 528,1,0xFF),
    (l.ring,8,l.req),(l.ring + 8,4,16),(l.ring + 12,2,1),(l.ring + 14,2,1),
    (l.ring + 16,8,l.req + 16),(l.ring + 24,4,513),(l.ring + 28,2,2),(l.ring + 30,2,0)]

/-- mem_copy from byte `i` on, and the end of the call. -/
def fetch (i : Nat) : List Stmt := (List.range' i (512 - i)).map .copy ++ [.takeUsed,.ret]

def virtioBlkReadSector (sector : Nat) : List Stmt :=
  (prepare l sector).map .store ++ .ring :: .bump :: .notify :: .poll :: fetch 0

/-- The next statement of the call. A turn of the wait loop leaves the state as it is. -/
def driverStep (s : Blk) : Blk :=
  match s.code with
  | [] => s
  | .store p :: code => { s with mem := store s.mem p.1 p.2.1 p.2.2, code := code }
  | .ring :: code =>
      let availIdx := (availIndex l s.mem).toNat % s.actualQSize.toNat
      { s with mem := store s.mem (l.ring + 260 + 2 * availIdx) 2 0, code := code }
  | .bump :: code =>
      { s with mem := store s.mem (l.ring + 258) 2 (availIndex l s.mem + 1).toNat, code := code }
  | .notify :: code => { s with code := code }
  | .poll :: code => if usedIndex l s.mem = s.lastUsedIdx then s else { s with code := code }
  | .copy i :: code =>
      { s with buf := Function.update s.buf i (s.mem (l.req + 16 + i)), code := code }
  | .takeUsed :: code => { s with lastUsedIdx := usedIndex l s.mem, code := code }
  | .ret :: code =>
      { s with
        returned := s.returned ++ [((List.range 512).map s.buf,s.mem (l.req + 528))]
        code := code }

end Driver

section Device

/-- The three parts of the queue as the device finds them from its registers. -/
def Regs.base (r : Regs) : Nat := r.queuePfn.toNat * r.pageSize.toNat

def Regs.avail (r : Regs) : Nat := r.base + 16 * r.queueNum.toNat

def Regs.used (r : Regs) : Nat :=
  (r.avail + 2 * (3 + r.queueNum.toNat) + 4095) / 4096 * 4096

def desc (m : Mem) (base i : Nat) : Desc :=
  ⟨load m (base + 16 * i) 8,load m (base + 16 * i + 8) 4,load m (base + 16 * i + 12) 2,
    load m (base + 16 * i + 14) 2⟩

/-- The chain of descriptors from `i` on, at most `n` of them. -/
def chain (m : Mem) (base : Nat) : Nat → Nat → List Desc
  | 0, _ => []
  | n + 1, i =>
    let d := desc m base i
    d :: if d.flags % 2 = 1 then chain m base n d.next else []

def addresses (writable : Bool) (ds : List Desc) : List Nat :=
  (ds.filter fun d => decide (d.flags / 2 % 2 = 1) == writable).flatMap fun d =>
    List.range' d.addr d.len

def loadAt (m : Mem) (as : List Nat) : Nat := as.foldr (fun a v => (m a).toNat + 256 * v) 0

def answerBytes (disk : Disk) (sector : Nat) (status : Byte) (as : List Nat) :
    List (Nat × Byte) :=
  as.mapIdx fun i a => (a,if i + 1 < as.length then disk (512 * sector + i) else status)

/-- The device does one thing: of the bytes it has left it writes the one at `k`, and it
answers with `status` when it is free to choose. Request types other than read it fails. -/
def deviceStep (disk : Disk) (status : Byte) (k : Nat) (s : Blk) : Blk :=
  let r := s.regs
  if r.status &&& 4 = 0 then s
  else
    match s.job with
    | .idle =>
      if s.lastAvail = BitVec.ofNat 16 (load s.mem (r.avail + 2) 2) then s
      else
        { s with
          job := .taken (load s.mem (r.avail + 4 + 2 * (s.lastAvail.toNat % r.queueNum.toNat)) 2)
          lastAvail := s.lastAvail + 1 }
    | .taken head => { s with job := .chained head (chain s.mem r.base r.queueNum.toNat head) }
    | .chained head ds =>
      let header := addresses false ds
      let as := addresses true ds
      let sector := loadAt s.mem ((header.drop 8).take 8)
      if loadAt s.mem (header.take 4) = 0 then
        { s with job := .writing head as.length sector status (answerBytes disk sector status as) }
      else { s with job := .writing head 1 sector 2 ((as.drop (as.length - 1)).map (·,2)) }
    | .writing head len sector status left =>
      match left[k]? with
      | some p => { s with
          mem := Function.update s.mem p.1 p.2
          job := .writing head len sector status (left.eraseIdx k) }
      | none =>
        if left = [] then
          let a := r.used + 4 + 8 * (s.usedIdx.toNat % r.queueNum.toNat)
          { s with mem := store (store s.mem a 4 head) (a + 4) 4 len, job := .ended sector status }
        else s
    | .ended sector status =>
      { s with
        mem := store s.mem (r.used + 2) 2 (s.usedIdx + 1).toNat
        usedIdx := s.usedIdx + 1
        job := .idle
        served := s.served ++ [(sector,status)] }

end Device

inductive Event where
  | call (sector : BitVec 64) (buf : Nat → Byte)
  | driver
  | device (status : Byte) (k : Nat)

/-- A call begins when the one before it has returned. -/
def step (l : Layout) (disk : Disk) (s : Blk) : Event → Blk
  | .call sector buf =>
      match s.code with
      | [] =>
        { s with
          buf := buf
          code := virtioBlkReadSector l sector.toNat
          called := s.called ++ [sector.toNat] }
      | _ => s
  | .driver => driverStep l s
  | .device status k => deviceStep disk status k s

/-- What the calls have returned, of the requests the device has completed. -/
def answer (disk : Disk) (p : Nat × Byte) : List Byte × Byte :=
  ((List.range 512).map fun i => disk (512 * p.1 + i),p.2)

/-- The registers and actual_q_size after virtio_blk_init. -/
structure Wired (l : Layout) (s : Blk) : Prop where
  status : s.regs.status &&& 4 ≠ 0
  base : s.regs.base = l.ring
  queueNum : s.regs.queueNum.toNat = 16
  actualQSize : s.actualQSize.toNat = 16

structure Counts (l : Layout) (s : Blk) (a la u lu : BitVec 16) : Prop where
  avail : availIndex l s.mem = a
  lastAvail : s.lastAvail = la
  used : usedIndex l s.mem = u
  usedIdx : s.usedIdx = u
  lastUsed : s.lastUsedIdx = lu

structure Ready (l : Layout) (m : Mem) (sector : Nat) : Prop where
  type : load m l.req 4 = 0
  sector : load m (l.req + 8) 8 = sector
  first : desc m l.ring 0 = ⟨l.req,16,1,1⟩
  second : desc m l.ring 1 = ⟨l.req + 16,513,2,0⟩

theorem Wired.avail {l : Layout} {s : Blk} (h : Wired l s) : s.regs.avail = l.ring + 256 := by
  rw [Regs.avail,h.base,h.queueNum]

theorem Wired.used {l : Layout} {s : Blk} (h : Wired l s) : s.regs.used = l.ring + 4096 := by
  have := l.aligned
  rw [Regs.used,h.avail,h.queueNum]
  omega

theorem prepare_pairwise (l : Layout) (sector : Nat) :
    (prepare l sector).Pairwise fun p q => Separate p.1 p.2.1 q.1 q.2.1 := by
  have h := l.apart
  unfold Separate at h
  simp only [prepare,List.pairwise_cons,List.mem_cons,forall_eq_or_imp,List.not_mem_nil,
    Separate,false_imp_iff,implies_true,List.Pairwise.nil,and_true]
  omega

theorem prepare_apart {l : Layout} {sector a : Nat} (ha : l.ring + 256 ≤ a)
    (ha' : a + 2 ≤ l.ring + 8192) : ∀ p ∈ prepare l sector, Separate a 2 p.1 p.2.1 := by
  have h := l.apart
  unfold Separate at h
  simp only [prepare,List.mem_cons,forall_eq_or_imp,List.not_mem_nil,Separate,
    false_imp_iff,implies_true,and_true]
  omega

theorem load_prepare {l : Layout} {m : Mem} {sector a n v : Nat}
    (h : (a,n,v) ∈ prepare l sector) (hv : v < 256 ^ n) :
    load (storeAll m (prepare l sector)) a n = v :=
  load_storeAll (prepare_pairwise l sector) h hv

theorem ready_prepare (l : Layout) (m : Mem) {sector : Nat} (hs : sector < 2 ^ 64) :
    Ready l (storeAll m (prepare l sector)) sector := by
  have hreq := l.req_end
  have hfirst : desc (storeAll m (prepare l sector)) l.ring 0 = ⟨l.req,16,1,1⟩ := by
    rw [desc,load_prepare (v := l.req) (by simp [prepare]) (by omega),
      load_prepare (v := 16) (by simp [prepare]) (by decide),
      load_prepare (v := 1) (by simp [prepare]) (by decide),
      load_prepare (v := 1) (by simp [prepare]) (by decide)]
  have hsecond : desc (storeAll m (prepare l sector)) l.ring 1 = ⟨l.req + 16,513,2,0⟩ := by
    rw [desc,load_prepare (v := l.req + 16) (by simp [prepare]) (by omega),
      load_prepare (v := 513) (by simp [prepare]) (by decide),
      load_prepare (v := 2) (by simp [prepare]) (by decide),
      load_prepare (v := 0) (by simp [prepare]) (by decide)]
  refine ⟨load_prepare ?_ (by decide),load_prepare ?_ (by omega),hfirst,hsecond⟩ <;>
    simp [prepare]

theorem Ready.store {l : Layout} {m : Mem} {sector : Nat} (h : Ready l m sector) {a n v : Nat}
    (ha : l.ring + 256 ≤ a) (hn : a + n ≤ l.ring + 8192) :
    Ready l (store m a n v) sector := by
  have hap := l.apart
  unfold Separate at hap
  have hload : ∀ {b k : Nat}, (l.req ≤ b ∧ b + k ≤ l.req + 16) ∨ b + k ≤ l.ring + 256 →
      load (ByteMem.store m a n v) b k = load m b k := by
    intro b k hb
    apply load_store_of_separate
    unfold Separate
    omega
  refine ⟨?_,?_,?_,?_⟩
  · rw [hload (by omega),h.type]
  · rw [hload (by omega),h.sector]
  · rw [← h.first,desc,desc,hload (by omega),hload (by omega),hload (by omega),hload (by omega)]
  · rw [← h.second,desc,desc,hload (by omega),hload (by omega),hload (by omega),hload (by omega)]

theorem Ready.chain {l : Layout} {m : Mem} {sector : Nat} (h : Ready l m sector) :
    chain m l.ring 16 0 = [⟨l.req,16,1,1⟩,⟨l.req + 16,513,2,0⟩] := by
  have hf := h.first
  have hs := h.second
  simp only [VirtioBlk.chain,hf,hs,Nat.reduceMod,reduceIte,Nat.zero_ne_one]

theorem loadAt_range' (m : Mem) (a n : Nat) : loadAt m (List.range' a n) = load m a n := by
  induction n generalizing a with
  | zero => rfl
  | succ n ih =>
    rw [List.range'_succ,load,← ih]
    rfl

theorem addresses_chain (b : Bool) (req : Nat) :
    addresses b [⟨req,16,1,1⟩,⟨req + 16,513,2,0⟩] =
      if b then List.range' (req + 16) 513 else List.range' req 16 := by
  cases b <;> simp [addresses]

/-- Byte `i` of the writable descriptor once the device is done. -/
def byteAt (disk : Disk) (sector : Nat) (status : Byte) (i : Nat) : Byte :=
  if i < 512 then disk (512 * sector + i) else status

theorem mem_answerBytes {disk : Disk} {sector a : Nat} {status : Byte} {p : Nat × Byte} :
    p ∈ answerBytes disk sector status (List.range' a 513) ↔
      ∃ i, i < 513 ∧ p = (a + i,byteAt disk sector status i) := by
  simp only [answerBytes,List.mem_mapIdx,List.length_range',List.getElem_range',Nat.one_mul,
    byteAt,show ∀ i, i + 1 < 513 ↔ i < 512 by omega]
  constructor
  · rintro ⟨i,hi,rfl⟩
    exact ⟨i,hi,rfl⟩
  · rintro ⟨i,hi,rfl⟩
    exact ⟨i,hi,rfl⟩

/-- The bytes of the answer are in memory, apart from those that are left. -/
structure Left (l : Layout) (disk : Disk) (sector : Nat) (status : Byte) (m : Mem)
    (left : List (Nat × Byte)) : Prop where
  own : ∀ p ∈ left, ∃ i, i < 513 ∧ p = (l.req + 16 + i,byteAt disk sector status i)
  rest : ∀ i, i < 513 → m (l.req + 16 + i) = byteAt disk sector status i ∨
    (l.req + 16 + i,byteAt disk sector status i) ∈ left

theorem left_all (l : Layout) (disk : Disk) (sector : Nat) (status : Byte) (m : Mem) :
    Left l disk sector status m
      (answerBytes disk sector status (List.range' (l.req + 16) 513)) :=
  ⟨fun _ hp => mem_answerBytes.mp hp,fun i hi => .inr (mem_answerBytes.mpr ⟨i,hi,rfl⟩)⟩

theorem Left.write {l : Layout} {disk : Disk} {sector : Nat} {status : Byte} {m : Mem}
    {left : List (Nat × Byte)} (h : Left l disk sector status m left) {k : Nat} {p : Nat × Byte}
    (hp : left[k]? = some p) :
    Left l disk sector status (Function.update m p.1 p.2) (left.eraseIdx k) := by
  obtain ⟨i,hi,rfl⟩ := h.own p (List.mem_of_getElem? hp)
  refine ⟨fun q hq => h.own q (List.mem_of_mem_eraseIdx hq),fun j hj => ?_⟩
  by_cases hji : j = i
  · left
    rw [hji,Function.update_self]
  · rw [Function.update_of_ne (by simp; omega)]
    refine (h.rest j hj).imp_right fun hmem => ?_
    obtain ⟨n,hn,heq⟩ := List.mem_iff_getElem.mp hmem
    refine List.mem_eraseIdx_iff_getElem.mpr ⟨n,hn,?_,heq⟩
    rintro rfl
    rw [List.getElem?_eq_getElem hn,heq,Option.some.injEq,Prod.mk.injEq] at hp
    omega

theorem Left.store {l : Layout} {disk : Disk} {sector : Nat} {status : Byte} {m : Mem}
    {left : List (Nat × Byte)} (h : Left l disk sector status m left) {a n v : Nat}
    (ha : l.ring ≤ a) (hn : a + n ≤ l.ring + 8192) :
    Left l disk sector status (store m a n v) left := by
  have hap := l.apart
  unfold Separate at hap
  refine ⟨h.own,fun i hi => ?_⟩
  rw [store_apply_of_notMem (by omega)]
  exact h.rest i hi

theorem availIndex_store {l : Layout} {m : Mem} {a n v : Nat} (h : Separate (l.ring + 258) 2 a n) :
    availIndex l (store m a n v) = availIndex l m := by
  rw [availIndex,availIndex,load_store_of_separate h]

theorem usedIndex_store {l : Layout} {m : Mem} {a n v : Nat} (h : Separate (l.ring + 4098) 2 a n) :
    usedIndex l (store m a n v) = usedIndex l m := by
  rw [usedIndex,usedIndex,load_store_of_separate h]

theorem ofNat_load_store {m : Mem} {a : Nat} {x : BitVec 16} :
    BitVec.ofNat 16 (load (store m a 2 x.toNat) a 2) = x := by
  rw [load_store x.isLt,BitVec.ofNat_toNat,BitVec.setWidth_eq]

theorem update_eq_store (m : Mem) (a : Nat) (b : Byte) :
    Function.update m a b = store m a 1 b.toNat := by
  rw [store,store,BitVec.ofNat_toNat,BitVec.setWidth_eq]

theorem Counts.store {l : Layout} {s : Blk} {a la u lu : BitVec 16} (h : Counts l s a la u lu)
    {x n v : Nat} (ha : Separate (l.ring + 258) 2 x n) (hu : Separate (l.ring + 4098) 2 x n) :
    Counts l { s with mem := store s.mem x n v } a la u lu :=
  ⟨(availIndex_store ha).trans h.avail,h.lastAvail,(usedIndex_store hu).trans h.used,h.usedIdx,
    h.lastUsed⟩

/-- The device between two completions, with one request published. -/
inductive Serving (l : Layout) (disk : Disk) (c : BitVec 16) (sector : Nat) (s : Blk) : Prop
  | published (hj : s.job = .idle) (hc : Counts l s (c + 1) c c c) (hr : Ready l s.mem sector)
      (hhead : load s.mem (l.ring + 260 + 2 * (c.toNat % 16)) 2 = 0)
  | taken (hj : s.job = .taken 0) (hc : Counts l s (c + 1) (c + 1) c c) (hr : Ready l s.mem sector)
  | chained (hj : s.job = .chained 0 [⟨l.req,16,1,1⟩,⟨l.req + 16,513,2,0⟩])
      (hc : Counts l s (c + 1) (c + 1) c c) (hr : Ready l s.mem sector)
  | writing (status : Byte) (left : List (Nat × Byte))
      (hj : s.job = .writing 0 513 sector status left)
      (hc : Counts l s (c + 1) (c + 1) c c) (hl : Left l disk sector status s.mem left)
  | ended (status : Byte) (hj : s.job = .ended sector status)
      (hc : Counts l s (c + 1) (c + 1) c c) (hl : Left l disk sector status s.mem [])

/-- The calls and requests so far: `cur` is the one that is called and not yet completed. -/
structure Log (disk : Disk) (s : Blk) (done : List (Nat × Byte)) (cur : List Nat) : Prop where
  called : s.called = s.served.map Prod.fst ++ cur
  returned : s.returned = done.map (answer disk)

inductive Phase (l : Layout) (disk : Disk) (s : Blk) : Prop
  | idle (c : BitVec 16) (hcode : s.code = []) (hj : s.job = .idle) (hc : Counts l s c c c c)
      (hg : Log disk s s.served [])
  | storing (c : BitVec 16) (sector : Nat) (hs : sector < 2 ^ 64) (m : Mem)
      (ps : List (Nat × Nat × Nat)) (hps : ps <:+ prepare l sector)
      (hm : storeAll s.mem ps = storeAll m (prepare l sector))
      (hcode : s.code = ps.map .store ++ .ring :: .bump :: .notify :: .poll :: fetch 0)
      (hj : s.job = .idle) (hc : Counts l s c c c c) (hg : Log disk s s.served [sector])
  | stored (c : BitVec 16) (sector : Nat) (hcode : s.code = .bump :: .notify :: .poll :: fetch 0)
      (hr : Ready l s.mem sector)
      (hhead : load s.mem (l.ring + 260 + 2 * (c.toNat % 16)) 2 = 0)
      (hj : s.job = .idle) (hc : Counts l s c c c c) (hg : Log disk s s.served [sector])
  | waiting (c : BitVec 16) (sector : Nat)
      (hcode : s.code = .notify :: .poll :: fetch 0 ∨ s.code = .poll :: fetch 0)
      (hserving : Serving l disk c sector s) (hg : Log disk s s.served [sector])
  | answered (c : BitVec 16) (sector : Nat) (status : Byte) (done : List (Nat × Byte))
      (hcode : s.code = .notify :: .poll :: fetch 0 ∨ s.code = .poll :: fetch 0)
      (hl : Left l disk sector status s.mem []) (hj : s.job = .idle)
      (hc : Counts l s (c + 1) (c + 1) (c + 1) c) (hserved : s.served = done ++ [(sector,status)])
      (hg : Log disk s done [])
  | copying (c : BitVec 16) (sector : Nat) (status : Byte) (done : List (Nat × Byte)) (i : Nat)
      (hcode : s.code = fetch i) (hi : i ≤ 512)
      (hbuf : ∀ j, j < i → s.buf j = disk (512 * sector + j))
      (hl : Left l disk sector status s.mem []) (hj : s.job = .idle)
      (hc : Counts l s (c + 1) (c + 1) (c + 1) c) (hserved : s.served = done ++ [(sector,status)])
      (hg : Log disk s done [])
  | returning (c : BitVec 16) (sector : Nat) (status : Byte) (done : List (Nat × Byte))
      (hcode : s.code = [.ret]) (hbuf : ∀ j, j < 512 → s.buf j = disk (512 * sector + j))
      (hl : Left l disk sector status s.mem []) (hj : s.job = .idle) (hc : Counts l s c c c c)
      (hserved : s.served = done ++ [(sector,status)]) (hg : Log disk s done [])

def Job.rank : Job → Nat
  | .idle => 1000
  | .taken _ => 999
  | .chained _ _ => 998
  | .writing _ _ _ _ left => left.length + 1
  | .ended _ _ => 0

theorem succ_ne (c : BitVec 16) : c ≠ c + 1 := by
  intro h
  have := congrArg BitVec.toNat h
  rw [BitVec.toNat_add] at this
  have hc := c.isLt
  have h1 : (1 : BitVec 16).toNat = 1 := rfl
  omega

theorem deviceStep_idle {l : Layout} {s : Blk} {c u lu : BitVec 16} (hw : Wired l s)
    (hj : s.job = .idle) (hc : Counts l s c c u lu) (disk : Disk) (status : Byte) (k : Nat) :
    deviceStep disk status k s = s := by
  have hla : s.lastAvail = BitVec.ofNat 16 (load s.mem (l.ring + 256 + 2) 2) :=
    hc.lastAvail.trans hc.avail.symm
  simp only [deviceStep,if_neg hw.status,hj,hw.avail,if_pos hla]

structure SameCall (s t : Blk) : Prop where
  regs : t.regs = s.regs
  actualQSize : t.actualQSize = s.actualQSize
  lastUsedIdx : t.lastUsedIdx = s.lastUsedIdx
  code : t.code = s.code
  called : t.called = s.called
  returned : t.returned = s.returned

theorem deviceStep_frame (disk : Disk) (status : Byte) (k : Nat) (s : Blk) :
    SameCall s (deviceStep disk status k s) := by
  dsimp only [deviceStep]
  repeat' split
  all_goals exact ⟨rfl,rfl,rfl,rfl,rfl,rfl⟩

theorem Wired.device {l : Layout} {s : Blk} (h : Wired l s) (disk : Disk) (status : Byte)
    (k : Nat) : Wired l (deviceStep disk status k s) := by
  have hf := deviceStep_frame disk status k s
  refine ⟨?_,?_,?_,?_⟩
  · rw [hf.regs]
    exact h.status
  · rw [hf.regs]
    exact h.base
  · rw [hf.regs]
    exact h.queueNum
  · rw [hf.actualQSize]
    exact h.actualQSize

theorem Serving.writeByte {l : Layout} {disk : Disk} {c : BitVec 16} {sector : Nat} {s : Blk}
    (hw : Wired l s) {status : Byte} {left : List (Nat × Byte)}
    (hj : s.job = .writing 0 513 sector status left) (hc : Counts l s (c + 1) (c + 1) c c)
    (hl : Left l disk sector status s.mem left) (choice : Byte) (k : Nat) :
    Serving l disk c sector (deviceStep disk choice k s) ∧
      (deviceStep disk choice k s).served = s.served ∧
      (k = 0 → (deviceStep disk choice k s).job.rank < s.job.rank) := by
  cases hk : left[k]? with
  | some p =>
    obtain ⟨i,hi,hp⟩ := hl.own p (List.mem_of_getElem? hk)
    have hap := l.apart
    unfold Separate at hap
    have hp1 : p.1 = l.req + 16 + i := congrArg Prod.fst hp
    simp only [deviceStep,if_neg hw.status,hj,hk]
    refine ⟨.writing status _ rfl ?_ (hl.write hk),trivial,fun _ => ?_⟩
    have hcs := @Counts.store l s _ _ _ _ hc p.1 1 p.2.toNat (by unfold Separate; omega)
      (by unfold Separate; omega)
    · rw [update_eq_store]
      exact ⟨hcs.avail,hcs.lastAvail,hcs.used,hcs.usedIdx,hcs.lastUsed⟩
    · have hlt : k < left.length := (List.getElem?_eq_some_iff.mp hk).1
      have hlen := List.length_eraseIdx_add_one hlt
      simp only [Job.rank]
      omega
  | none =>
    by_cases hnil : left = []
    · subst hnil
      simp only [deviceStep,if_neg hw.status,hj,hk,reduceIte,hw.used,hw.queueNum]
      have hmod : s.usedIdx.toNat % 16 < 16 := Nat.mod_lt _ (by decide)
      refine ⟨.ended status rfl ?_ ?_,trivial,by simp [Job.rank]⟩
      · have hcs := (@Counts.store l s _ _ _ _ hc (l.ring + 4096 + 4 + 8 * (s.usedIdx.toNat % 16))
          4 0 (by unfold Separate; omega) (by unfold Separate; omega)).store
          (x := l.ring + 4096 + 4 + 8 * (s.usedIdx.toNat % 16) + 4) (n := 4) (v := 513)
          (by unfold Separate; omega) (by unfold Separate; omega)
        exact ⟨hcs.avail,hcs.lastAvail,hcs.used,hcs.usedIdx,hcs.lastUsed⟩
      · exact (hl.store (by omega) (by omega)).store (by omega) (by omega)
    · have hs : deviceStep disk choice k s = s := by
        simp only [deviceStep,if_neg hw.status,hj,hk,if_neg hnil]
      rw [hs]
      refine ⟨.writing status left hj hc hl,rfl,?_⟩
      rintro rfl
      exact absurd (List.getElem?_eq_none_iff.mp hk) (by simpa using hnil)

theorem Serving.device {l : Layout} {disk : Disk} {c : BitVec 16} {sector : Nat} {s : Blk}
    (hw : Wired l s) (h : Serving l disk c sector s) (choice : Byte) (k : Nat) :
    (Serving l disk c sector (deviceStep disk choice k s) ∧
      (deviceStep disk choice k s).served = s.served ∧
      (k = 0 → (deviceStep disk choice k s).job.rank < s.job.rank)) ∨
    ∃ status, (deviceStep disk choice k s).served = s.served ++ [(sector,status)] ∧
      (deviceStep disk choice k s).job = .idle ∧
      Left l disk sector status (deviceStep disk choice k s).mem [] ∧
      Counts l (deviceStep disk choice k s) (c + 1) (c + 1) (c + 1) c := by
  cases h with
  | published hj hc hr hhead =>
    have hla : s.lastAvail ≠ BitVec.ofNat 16 (load s.mem (l.ring + 256 + 2) 2) := by
      rw [hc.lastAvail]
      exact fun h => succ_ne c (h.trans hc.avail)
    have hhead' : load s.mem (l.ring + 256 + 4 + 2 * (s.lastAvail.toNat % 16)) 2 = 0 := by
      rw [hc.lastAvail]
      exact hhead
    left
    simp only [deviceStep,if_neg hw.status,hj,hw.avail,if_neg hla,hw.queueNum,hhead']
    refine ⟨.taken rfl ⟨hc.avail,?_,hc.used,hc.usedIdx,hc.lastUsed⟩ hr,trivial,by simp [Job.rank]⟩
    rw [hc.lastAvail]
  | taken hj hc hr =>
    left
    simp only [deviceStep,if_neg hw.status,hj,hw.base,hw.queueNum,hr.chain]
    exact ⟨.chained rfl ⟨hc.avail,hc.lastAvail,hc.used,hc.usedIdx,hc.lastUsed⟩ hr,trivial,
      by simp [Job.rank]⟩
  | chained hj hc hr =>
    have htype : loadAt s.mem ((List.range' l.req 16).take 4) = 0 :=
      (loadAt_range' s.mem l.req 4).trans hr.type
    have hsector : loadAt s.mem (((List.range' l.req 16).drop 8).take 8) = sector :=
      (loadAt_range' s.mem (l.req + 8) 8).trans hr.sector
    left
    simp only [deviceStep,if_neg hw.status,hj,addresses_chain,reduceIte,Bool.false_eq_true,htype,
      hsector,List.length_range']
    exact ⟨.writing choice _ rfl ⟨hc.avail,hc.lastAvail,hc.used,hc.usedIdx,hc.lastUsed⟩
      (left_all l disk sector choice s.mem),trivial,by simp [Job.rank,answerBytes]⟩
  | writing status left hj hc hl =>
    exact .inl (Serving.writeByte hw hj hc hl choice k)
  | ended status hj hc hl =>
    right
    simp only [deviceStep,if_neg hw.status,hj,hw.used,hc.usedIdx]
    refine ⟨status,rfl,trivial,hl.store (by omega) (by omega),?_,hc.lastAvail,?_,rfl,hc.lastUsed⟩
    · exact (availIndex_store (by unfold Separate; omega)).trans hc.avail
    · exact ofNat_load_store

/-- The log does not see what the device does before it completes a request. -/
theorem Log.device {disk : Disk} {s : Blk} {done : List (Nat × Byte)} {cur : List Nat}
    (h : Log disk s done cur) {status : Byte} {k : Nat}
    (hserved : (deviceStep disk status k s).served = s.served) :
    Log disk (deviceStep disk status k s) done cur := by
  have hf := deviceStep_frame disk status k s
  exact ⟨by rw [hf.called,hserved,h.called],by rw [hf.returned,h.returned]⟩

theorem Phase.device {l : Layout} {disk : Disk} {s : Blk} (hw : Wired l s) (h : Phase l disk s)
    (choice : Byte) (k : Nat) : Phase l disk (deviceStep disk choice k s) := by
  cases h with
  | waiting c sector hcode hserving hg =>
    have hf := deviceStep_frame disk choice k s
    rcases hserving.device hw choice k with ⟨hserving,hserved,_⟩ | ⟨status,hserved,hj,hl,hc⟩
    · rw [← hf.code] at hcode
      rw [← hserved] at hg
      exact .waiting c sector hcode hserving (hserved ▸ hg.device hserved)
    · rw [← hf.code] at hcode
      refine .answered c sector status s.served hcode hl hj hc hserved ⟨?_,?_⟩
      · rw [hf.called,hg.called,hserved]
        simp
      · rw [hf.returned,hg.returned]
  | idle c hcode hj hc hg =>
    rw [deviceStep_idle hw hj hc]
    exact .idle c hcode hj hc hg
  | storing c sector hs m ps hps hm hcode hj hc hg =>
    rw [deviceStep_idle hw hj hc]
    exact .storing c sector hs m ps hps hm hcode hj hc hg
  | stored c sector hcode hr hhead hj hc hg =>
    rw [deviceStep_idle hw hj hc]
    exact .stored c sector hcode hr hhead hj hc hg
  | answered c sector status done hcode hl hj hc hserved hg =>
    rw [deviceStep_idle hw hj hc]
    exact .answered c sector status done hcode hl hj hc hserved hg
  | copying c sector status done i hcode hi hbuf hl hj hc hserved hg =>
    rw [deviceStep_idle hw hj hc]
    exact .copying c sector status done i hcode hi hbuf hl hj hc hserved hg
  | returning c sector status done hcode hbuf hl hj hc hserved hg =>
    rw [deviceStep_idle hw hj hc]
    exact .returning c sector status done hcode hbuf hl hj hc hserved hg

theorem fetch_lt {i : Nat} (h : i < 512) : fetch i = .copy i :: fetch (i + 1) := by
  rw [fetch,show 512 - i = 512 - (i + 1) + 1 by omega,List.range'_succ]
  rfl

theorem fetch_512 : fetch 512 = [.takeUsed,.ret] := rfl

theorem Counts.calling {l : Layout} {s : Blk} {a la u lu : BitVec 16} (h : Counts l s a la u lu)
    (buf : Nat → Byte) (code : List Stmt) (called : List Nat)
    (returned : List (List Byte × Byte)) :
    Counts l { s with buf := buf, code := code, called := called, returned := returned }
      a la u lu :=
  ⟨h.avail,h.lastAvail,h.used,h.usedIdx,h.lastUsed⟩

theorem Serving.code {l : Layout} {disk : Disk} {c : BitVec 16} {sector : Nat} {s : Blk}
    (h : Serving l disk c sector s) (code : List Stmt) :
    Serving l disk c sector { s with code := code } := by
  have hcount : ∀ {a la u lu : BitVec 16}, Counts l s a la u lu →
      Counts l { s with code := code } a la u lu :=
    fun hc => hc.calling s.buf code s.called s.returned
  cases h with
  | published hj hc hr hhead => exact .published hj (hcount hc) hr hhead
  | taken hj hc hr => exact .taken hj (hcount hc) hr
  | chained hj hc hr => exact .chained hj (hcount hc) hr
  | writing status left hj hc hl => exact .writing status left hj (hcount hc) hl
  | ended status hj hc hl => exact .ended status hj (hcount hc) hl

theorem Serving.unchanged {l : Layout} {disk : Disk} {c : BitVec 16} {sector : Nat} {s : Blk}
    (h : Serving l disk c sector s) : usedIndex l s.mem = s.lastUsedIdx := by
  cases h with
  | published hj hc => exact hc.used.trans hc.lastUsed.symm
  | taken hj hc => exact hc.used.trans hc.lastUsed.symm
  | chained hj hc => exact hc.used.trans hc.lastUsed.symm
  | writing status left hj hc => exact hc.used.trans hc.lastUsed.symm
  | ended status hj hc => exact hc.used.trans hc.lastUsed.symm

theorem answer_eq {disk : Disk} {sector : Nat} {status : Byte} {buf : Nat → Byte}
    (hbuf : ∀ j, j < 512 → buf j = disk (512 * sector + j)) :
    ((List.range 512).map buf,status) = answer disk (sector,status) := by
  rw [answer,Prod.mk.injEq]
  exact ⟨List.map_congr_left fun j hj => hbuf j (List.mem_range.mp hj),rfl⟩

theorem Phase.driver {l : Layout} {disk : Disk} {s : Blk} (hw : Wired l s) (h : Phase l disk s) :
    Phase l disk (driverStep l s) := by
  cases h with
  | idle c hcode hj hc hg =>
    simp only [driverStep,hcode]
    exact .idle c hcode hj hc hg
  | storing c sector hs m ps hps hm hcode hj hc hg =>
    cases ps with
    | nil =>
      -- All stores are done, so the request is ready: the next statement is for the ring.
      have hm : s.mem = storeAll m (prepare l sector) := hm
      have hr : Ready l s.mem sector := hm ▸ ready_prepare l m hs
      have hmod : c.toNat % 16 < 16 := Nat.mod_lt _ (by decide)
      have hcs := @Counts.store l s c c c c hc (l.ring + 260 + 2 * (c.toNat % 16)) 2 0
        (by unfold Separate; omega) (by unfold Separate; omega)
      simp only [driverStep,hcode,List.map_nil,List.nil_append,hc.avail,hw.actualQSize]
      exact .stored c sector rfl (hr.store (by omega) (by omega)) (load_store (by decide)) hj
        (hcs.calling _ _ _ _) ⟨hg.called,hg.returned⟩
    | cons p ps =>
      have hp : p ∈ prepare l sector := hps.subset List.mem_cons_self
      simp only [driverStep,hcode,List.map_cons,List.cons_append]
      refine .storing c sector hs m ps ((List.suffix_cons p ps).trans hps) hm rfl hj ?_
        ⟨hg.called,hg.returned⟩
      exact (hc.store (prepare_apart (by omega) (by omega) p hp)
        (prepare_apart (by omega) (by omega) p hp)).calling _ _ _ _
  | stored c sector hcode hr hhead hj hc hg =>
    simp only [driverStep,hcode,hc.avail]
    refine .waiting c sector (.inl rfl) (.published hj ?_ (hr.store (by omega) (by omega)) ?_)
      ⟨hg.called,hg.returned⟩
    · refine ⟨ofNat_load_store,hc.lastAvail,?_,hc.usedIdx,hc.lastUsed⟩
      exact (usedIndex_store (by unfold Separate; omega)).trans hc.used
    · exact (load_store_of_separate (by unfold Separate; omega)).trans hhead
  | waiting c sector hcode hserving hg =>
    rcases hcode with hcode | hcode
    · simp only [driverStep,hcode]
      exact .waiting c sector (.inr rfl) (hserving.code _) ⟨hg.called,hg.returned⟩
    · simp only [driverStep,hcode,if_pos hserving.unchanged]
      exact .waiting c sector (.inr hcode) hserving hg
  | answered c sector status done hcode hl hj hc hserved hg =>
    rcases hcode with hcode | hcode
    · simp only [driverStep,hcode]
      exact .answered c sector status done (.inr rfl) hl hj (hc.calling _ _ _ _) hserved
        ⟨hg.called,hg.returned⟩
    · have hne : usedIndex l s.mem ≠ s.lastUsedIdx := by
        rw [hc.used,hc.lastUsed]
        exact (succ_ne c).symm
      simp only [driverStep,hcode,if_neg hne]
      exact .copying c sector status done 0 rfl (by omega) (by simp) hl hj (hc.calling _ _ _ _)
        hserved ⟨hg.called,hg.returned⟩
  | copying c sector status done i hcode hi hbuf hl hj hc hserved hg =>
    by_cases hi' : i < 512
    · have hbyte : s.mem (l.req + 16 + i) = disk (512 * sector + i) := by
        rcases hl.rest i (by omega) with h | h
        · rwa [byteAt,if_pos hi'] at h
        · cases h
      simp only [driverStep,hcode,fetch_lt hi',hbyte]
      refine .copying c sector status done (i + 1) rfl hi' ?_ hl hj (hc.calling _ _ _ _) hserved
        ⟨hg.called,hg.returned⟩
      intro j hj
      by_cases hji : j = i
      · rw [hji]
        exact Function.update_self i _ _
      · exact (Function.update_of_ne hji _ _).trans (hbuf j (by omega))
    · obtain rfl : i = 512 := by omega
      simp only [driverStep,hcode,fetch_512]
      exact .returning (c + 1) sector status done rfl hbuf hl hj
        ⟨hc.avail,hc.lastAvail,hc.used,hc.usedIdx,hc.used⟩ hserved ⟨hg.called,hg.returned⟩
  | returning c sector status done hcode hbuf hl hj hc hserved hg =>
    have hstatus : s.mem (l.req + 528) = status := by
      rcases hl.rest 512 (by omega) with h | h
      · rwa [byteAt,if_neg (by omega)] at h
      · cases h
    simp only [driverStep,hcode,hstatus,answer_eq hbuf]
    refine .idle c rfl hj (hc.calling _ _ _ _) ⟨hg.called,?_⟩
    rw [hg.returned,hserved,List.map_append]
    rfl

theorem Phase.call {l : Layout} {disk : Disk} {s : Blk} (h : Phase l disk s) (sector : BitVec 64)
    (buf : Nat → Byte) : Phase l disk (step l disk s (.call sector buf)) := by
  cases hcode : s.code with
  | cons stmt code =>
    have hs : step l disk s (.call sector buf) = s := by simp only [step,hcode]
    rw [hs]
    exact h
  | nil =>
    cases h with
    | idle c _ hj hc hg =>
      simp only [step,hcode]
      refine .storing c sector.toNat sector.isLt s.mem _ (List.suffix_refl _) rfl rfl hj
        (hc.calling _ _ _ _) ⟨?_,hg.returned⟩
      rw [hg.called,List.append_nil]
    | storing c sector' hs m ps hps hm hcode' => simp [hcode'] at hcode
    | stored c sector' hcode' => simp [hcode'] at hcode
    | waiting c sector' hcode' => rcases hcode' with h | h <;> simp [h] at hcode
    | answered c sector' status done hcode' => rcases hcode' with h | h <;> simp [h] at hcode
    | copying c sector' status done i hcode' => simp [hcode',fetch] at hcode
    | returning c sector' status done hcode' => simp [hcode'] at hcode

theorem driverStep_moves (l : Layout) {s : Blk} (h : s.code ≠ []) :
    (driverStep l s).job = s.job ∧ (driverStep l s).called = s.called ∧
      ((driverStep l s).code.length < s.code.length ∨
        driverStep l s = s ∧ usedIndex l s.mem = s.lastUsedIdx ∧
          ∃ code, s.code = .poll :: code) := by
  cases hcode : s.code with
  | nil => exact absurd hcode h
  | cons stmt code =>
    cases stmt with
    | poll =>
      by_cases hu : usedIndex l s.mem = s.lastUsedIdx
      · simp [driverStep,hcode,hu]
      · simp [driverStep,hcode,hu]
    | _ => simp [driverStep,hcode]

/-- Between two statements of the call the device may move: the call or the device comes
closer to its end. -/
theorem Phase.round {l : Layout} {disk : Disk} {s : Blk} (hw : Wired l s) (h : Phase l disk s)
    (hne : s.code ≠ []) :
    let t := driverStep l (deviceStep disk 0 0 s)
    t.called = s.called ∧ (t.code.length < s.code.length ∨
      t.code.length = s.code.length ∧ t.job.rank < s.job.rank) := by
  intro t
  have hf := deviceStep_frame disk 0 0 s
  obtain ⟨hjob,hcalled,hmoves⟩ := @driverStep_moves l (deviceStep disk 0 0 s) (by rwa [hf.code])
  refine ⟨hcalled.trans hf.called,?_⟩
  rw [hf.code] at hmoves
  rcases hmoves with hlt | ⟨hstay,hused,code,hpoll⟩
  · exact .inl hlt
  · -- The loop goes round, so the device has not completed the request yet.
    have hrank : (deviceStep disk 0 0 s).job.rank < s.job.rank := by
      cases h with
      | idle c hcode => exact absurd hcode hne
      | storing c sector hs m ps hps hm hcode =>
        cases ps <;> simp [hcode] at hpoll
      | stored c sector hcode => simp [hcode] at hpoll
      | waiting c sector hcode hserving hg =>
        rcases hserving.device hw 0 0 with ⟨_,_,hrank⟩ | ⟨status,_,_,_,hc⟩
        · exact hrank rfl
        · rw [hc.used,hc.lastUsed] at hused
          exact absurd hused (succ_ne c).symm
      | answered c sector status done hcode hl hj hc =>
        rw [deviceStep_idle hw hj hc,hc.used,hc.lastUsed] at hused
        exact absurd hused (succ_ne c).symm
      | copying c sector status done i hcode hi =>
        rcases hi.lt_or_eq with hi | rfl
        · simp [hcode,fetch_lt hi] at hpoll
        · simp [hcode,fetch_512] at hpoll
      | returning c sector status done hcode => simp [hcode] at hpoll
    right
    have ht : t = deviceStep disk 0 0 s := hstay
    rw [ht,hf.code]
    exact ⟨rfl,hrank⟩

theorem driverStep_sizes (l : Layout) (s : Blk) :
    (driverStep l s).regs = s.regs ∧ (driverStep l s).actualQSize = s.actualQSize := by
  dsimp only [driverStep]
  repeat' split
  all_goals exact ⟨rfl,rfl⟩

theorem Wired.driver {l : Layout} {s : Blk} (h : Wired l s) : Wired l (driverStep l s) := by
  have hf := driverStep_sizes l s
  exact ⟨by rw [hf.1]; exact h.status,by rw [hf.1]; exact h.base,by rw [hf.1]; exact h.queueNum,
    by rw [hf.2]; exact h.actualQSize⟩

theorem Wired.call {l : Layout} {disk : Disk} {s : Blk} (h : Wired l s) (sector : BitVec 64)
    (buf : Nat → Byte) : Wired l (step l disk s (.call sector buf)) := by
  cases hcode : s.code with
  | nil =>
    simp only [step,hcode]
    exact ⟨h.status,h.base,h.queueNum,h.actualQSize⟩
  | cons stmt code =>
    simp only [step,hcode]
    exact h

theorem step_keeps {l : Layout} {disk : Disk} {s : Blk} (h : Wired l s ∧ Phase l disk s)
    (e : Event) : Wired l (step l disk s e) ∧ Phase l disk (step l disk s e) := by
  cases e with
  | call sector buf => exact ⟨h.1.call sector buf,h.2.call sector buf⟩
  | driver => exact ⟨h.1.driver,h.2.driver h.1⟩
  | device status k => exact ⟨h.1.device disk status k,h.2.device h.1 status k⟩

theorem Phase.returns {l : Layout} {disk : Disk} {s : Blk} (hw : Wired l s) (h : Phase l disk s) :
    ∃ evs, (∀ e ∈ evs, e = .driver ∨ ∃ status k, e = .device status k) ∧
      Phase l disk (exec (step l disk) s evs) ∧ (exec (step l disk) s evs).code = [] ∧
      (exec (step l disk) s evs).called = s.called := by
  induction hn : s.code.length using Nat.strongRecOn generalizing s with
  | ind n ih =>
    induction hr : s.job.rank using Nat.strongRecOn generalizing s with
    | ind r ihr =>
      by_cases hcode : s.code = []
      · exact ⟨[],by simp,h,hcode,rfl⟩
      · obtain ⟨hcalled,hless⟩ := h.round hw hcode
        have hw' := (hw.device disk 0 0).driver
        have hp' := (h.device hw 0 0).driver (hw.device disk 0 0)
        have hrest : ∃ evs, (∀ e ∈ evs, e = .driver ∨ ∃ status k, e = .device status k) ∧
            Phase l disk (exec (step l disk) (driverStep l (deviceStep disk 0 0 s)) evs) ∧
            (exec (step l disk) (driverStep l (deviceStep disk 0 0 s)) evs).code = [] ∧
            (exec (step l disk) (driverStep l (deviceStep disk 0 0 s)) evs).called =
              (driverStep l (deviceStep disk 0 0 s)).called := by
          rcases hless with hlt | ⟨heq,hlt⟩
          · exact ih _ (hn ▸ hlt) hw' hp' rfl
          · exact ihr _ (hr ▸ hlt) hw' hp' (heq.trans hn) rfl
        obtain ⟨evs,hevs,hp,hret,heq⟩ := hrest
        refine ⟨.device 0 0 :: .driver :: evs,?_,hp,hret,heq.trans hcalled⟩
        intro e he
        rcases List.mem_cons.mp he with rfl | he
        · exact .inr ⟨0,0,rfl⟩
        · rcases List.mem_cons.mp he with rfl | he
          · exact .inl rfl
          · exact hevs e he

/-- What the calls have returned is a first part of what the device has completed, and no
more than the last call is open. -/
theorem Phase.answers {l : Layout} {disk : Disk} {s : Blk} (h : Phase l disk s) :
    s.returned <+: s.served.map (answer disk) ∧ s.served.map Prod.fst <+: s.called ∧
      s.called.length ≤ s.returned.length + 1 ∧
      (s.code = [] → s.returned = s.served.map (answer disk) ∧
        s.called = s.served.map Prod.fst) := by
  have hopen : ∀ {sector : Nat}, Log disk s s.served [sector] → s.code ≠ [] →
      s.returned <+: s.served.map (answer disk) ∧ s.served.map Prod.fst <+: s.called ∧
      s.called.length ≤ s.returned.length + 1 ∧
      (s.code = [] → s.returned = s.served.map (answer disk) ∧
        s.called = s.served.map Prod.fst) := by
    intro sector hg hne
    refine ⟨hg.returned ▸ List.prefix_refl _,⟨[sector],hg.called.symm⟩,?_,fun h => absurd h hne⟩
    simp [hg.called,hg.returned]
  have hdone : ∀ {done : List (Nat × Byte)} {p : Nat × Byte}, Log disk s done [] →
      s.served = done ++ [p] → s.code ≠ [] →
      s.returned <+: s.served.map (answer disk) ∧ s.served.map Prod.fst <+: s.called ∧
      s.called.length ≤ s.returned.length + 1 ∧
      (s.code = [] → s.returned = s.served.map (answer disk) ∧
        s.called = s.served.map Prod.fst) := by
    intro done p hg hserved hne
    refine ⟨⟨[answer disk p],?_⟩,⟨[],hg.called.symm⟩,?_,fun h => absurd h hne⟩
    · simp [hserved,hg.returned]
    · simp [hg.called,hg.returned,hserved]
  cases h with
  | idle c hcode hj hc hg =>
    have hcalled : s.called = s.served.map Prod.fst := by rw [hg.called,List.append_nil]
    refine ⟨hg.returned ▸ List.prefix_refl _,hcalled ▸ List.prefix_refl _,?_,
      fun _ => ⟨hg.returned,hcalled⟩⟩
    simp [hcalled,hg.returned]
  | storing c sector hs m ps hps hm hcode hj hc hg => exact hopen hg (by simp [hcode])
  | stored c sector hcode hr hhead hj hc hg => exact hopen hg (by simp [hcode])
  | waiting c sector hcode hserving hg =>
    exact hopen hg (by rcases hcode with h | h <;> simp [h])
  | answered c sector status done hcode hl hj hc hserved hg =>
    exact hdone hg hserved (by rcases hcode with h | h <;> simp [h])
  | copying c sector status done i hcode hi hbuf hl hj hc hserved hg =>
    exact hdone hg hserved (by simp [hcode,fetch])
  | returning c sector status done hcode hbuf hl hj hc hserved hg =>
    exact hdone hg hserved (by simp [hcode])

structure Fresh (l : Layout) (s : Blk) : Prop where
  ring : ∀ x, l.ring ≤ x → x < l.ring + 8192 → s.mem x = 0
  code : s.code = []
  called : s.called = []
  served : s.served = []
  returned : s.returned = []

theorem virtioBlkInit_ok {l : Layout} {s : Blk} (hok : (virtioBlkInit l s).1 = 0) :
    let q := if s.regs.queueNumMax < 16 then s.regs.queueNumMax else 16
    (virtioBlkInit l s).2 = { s with
      actualQSize := q
      lastUsedIdx := 0
      regs := { s.regs with
        status := 7, pageSize := 4096, queueNum := q
        queuePfn := BitVec.ofNat 32 (l.ring / 2 ^ 12) }
      lastAvail := 0
      usedIdx := 0
      job := .idle } := by
  by_cases hmagic : s.regs.magic ≠ 0x74726976
  · rw [virtioBlkInit,if_pos hmagic] at hok
    cases hok
  · by_cases hdevice : s.regs.deviceId ≠ 2
    · rw [virtioBlkInit,if_neg hmagic,if_pos hdevice] at hok
      cases hok
    · rw [virtioBlkInit,if_neg hmagic,if_neg hdevice]
      simp [writeStatus]

theorem virtioBlkInit_eq {l : Layout} {s : Blk} (hok : (virtioBlkInit l s).1 = 0)
    (hmax : 16 ≤ s.regs.queueNumMax.toNat) :
    (virtioBlkInit l s).2 = { s with
      actualQSize := 16
      lastUsedIdx := 0
      regs := { s.regs with
        status := 7, pageSize := 4096, queueNum := 16
        queuePfn := BitVec.ofNat 32 (l.ring / 2 ^ 12) }
      lastAvail := 0
      usedIdx := 0
      job := .idle } := by
  have hq : ¬ s.regs.queueNumMax < 16 := Nat.not_lt.mpr hmax
  have h := virtioBlkInit_ok hok
  rwa [if_neg hq] at h

theorem ring_base (l : Layout) :
    (BitVec.ofNat 32 (l.ring / 2 ^ 12)).toNat * (4096 : BitVec 32).toNat = l.ring := by
  have hend := l.ring_end
  have halign := l.aligned
  have hpage : (4096 : BitVec 32).toNat = 4096 := rfl
  rw [BitVec.toNat_ofNat,hpage]
  omega

theorem Fresh.index_zero {l : Layout} {s : Blk} (h : Fresh l s) {a : Nat} (ha : l.ring ≤ a)
    (ha' : a + 2 ≤ l.ring + 8192) : BitVec.ofNat 16 (load s.mem a 2) = 0 := by
  rw [load_of_zero fun x hx hx' => h.ring x (by omega) (by omega)]
  rfl

theorem wired_virtioBlkInit {l : Layout} {s : Blk} (hok : (virtioBlkInit l s).1 = 0)
    (hmax : 16 ≤ s.regs.queueNumMax.toNat) : Wired l (virtioBlkInit l s).2 := by
  rw [virtioBlkInit_eq hok hmax]
  exact ⟨(by decide : (7 : BitVec 32) &&& 4 ≠ 0),ring_base l,rfl,rfl⟩

theorem phase_virtioBlkInit {l : Layout} {s : Blk} (h : Fresh l s) (disk : Disk)
    (hok : (virtioBlkInit l s).1 = 0) (hmax : 16 ≤ s.regs.queueNumMax.toNat) :
    Phase l disk (virtioBlkInit l s).2 := by
  rw [virtioBlkInit_eq hok hmax]
  refine .idle 0 h.code rfl ⟨h.index_zero (by omega) (by omega),rfl,
    h.index_zero (by omega) (by omega),rfl,rfl⟩ ⟨?_,?_⟩
  · simp [h.called,h.served]
  · simp [h.returned,h.served]

/-- The calls return what the device has completed for them: a call has the sector it asked
for in buf and the status that the device wrote for it, and it does not return before. -/
theorem reads_answered {l : Layout} {s : Blk} (h : Fresh l s) (hok : (virtioBlkInit l s).1 = 0)
    (hmax : 16 ≤ s.regs.queueNumMax.toNat) (disk : Disk) (evs : List Event) :
    let t := exec (step l disk) (virtioBlkInit l s).2 evs
    t.returned <+: t.served.map (answer disk) ∧ t.served.map Prod.fst <+: t.called ∧
      t.called.length ≤ t.returned.length + 1 ∧
      (t.code = [] → t.returned = t.served.map (answer disk) ∧
        t.called = t.served.map Prod.fst) ∧
      ∃ evs', (∀ e ∈ evs', e = .driver ∨ ∃ status k, e = .device status k) ∧
        (exec (step l disk) t evs').code = [] ∧ (exec (step l disk) t evs').called = t.called := by
  intro t
  have ht : Wired l t ∧ Phase l disk t := exec_keeps (I := fun t => Wired l t ∧ Phase l disk t)
    (fun _ e hs => step_keeps hs e)
    ⟨wired_virtioBlkInit hok hmax,phase_virtioBlkInit h disk hok hmax⟩ evs
  obtain ⟨hret,hserved,hlen,hall⟩ := ht.2.answers
  obtain ⟨evs',hevs',_,hcode,hcalled⟩ := ht.2.returns ht.1
  exact ⟨hret,hserved,hlen,hall,evs',hevs',hcode,hcalled⟩

def exampleLayout : Layout :=
  ⟨0x41000000,0x41001000,by decide,by decide,by decide,by decide⟩

def exampleBlk : Blk :=
  ⟨fun _ => 0,7,7,⟨0x74726976,2,1024,0,0,0,0⟩,5,5,.idle,fun _ => 0,[],[],[],[]⟩

def exampleDisk : Disk := fun i => BitVec.ofNat 8 i

theorem reads_answered_five : ∃ evs status,
    (exec (step exampleLayout exampleDisk) (virtioBlkInit exampleLayout exampleBlk).2
      (.call 5 (fun _ => 0) :: evs)).returned = [answer exampleDisk (5,status)] := by
  have h := @reads_answered exampleLayout exampleBlk ⟨fun _ _ _ => rfl,rfl,rfl,rfl,rfl⟩ (by decide)
    (by decide) exampleDisk
  obtain ⟨_,_,_,_,evs,_,hcode,hcalled⟩ := h [.call 5 (fun _ => 0)]
  rw [← exec_append] at hcode hcalled
  obtain ⟨hret,hall⟩ := (h ([.call 5 (fun _ => 0)] ++ evs)).2.2.2.1 hcode
  rw [hcalled] at hall
  have hfive : [5] = (exec (step exampleLayout exampleDisk)
      (virtioBlkInit exampleLayout exampleBlk).2
      ([.call 5 (fun _ => 0)] ++ evs)).served.map Prod.fst := hall
  obtain ⟨⟨sector,status⟩,hserved,hsector⟩ := List.map_eq_singleton_iff.mp hfive.symm
  refine ⟨evs,status,hret.trans ?_⟩
  rw [hserved,← hsector]
  rfl

end Arm64.VirtioBlk

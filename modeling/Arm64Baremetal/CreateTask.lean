import Arm64Baremetal.HeapRam
import Arm64Baremetal.TaskStacks

set_option autoImplicit false

namespace Arm64
open Runs IntrusiveQueue FirstFit

structure LockedKernel where
  kernel : SchedMm
  schedLock : BitVec 32

def LockedKernel.spinLock (m : LockedKernel) : LockedKernel := { m with schedLock := 1 }
def LockedKernel.spinUnlock (m : LockedKernel) : LockedKernel := { m with schedLock := 0 }

variable (img : KernelImage)

/-- create_task, from the moment that it has sched_lock; `none` where mm_allocate_pages faults,
with sched_lock taken. -/
def createTaskCall (entry taskExit : Word) (m : LockedKernel) : Option LockedKernel :=
  let m := m.spinLock
  let k := m.kernel
  match k.sched.emptySlot with
  | none =>
    some { m with kernel := { k with sched := k.sched.createTask entry taskExit 0 } }.spinUnlock
  | some _ =>
    match mmAllocatePagesTo img stackPages k.mm with
    | none => none
    | some r =>
      some { m with kernel := ⟨k.sched.createTask entry taskExit r.1,r.2⟩ }.spinUnlock

def SchedIo.written : SchedIo → Option (Word × Word)
  | .memZero ptr size => some (ptr,size)
  | .store ptr _ => some (ptr,8)
  | .freePages ptr numPages => some (ptr,numPages.setWidth 64 * 4096)
  | .printf _ _ | .sgi1 _ _ | .dispatch _ => none

/-- All that was logged between `s` and `s'` has the property `P`. -/
def Logs (P : SchedIo → Prop) (s s' : Sched) : Prop :=
  ∃ new, s'.io = new ++ s.io ∧ ∀ e ∈ new, P e

def InStack (stack ptr size : Word) : Prop :=
  stack.toNat ≤ ptr.toNat ∧ ptr.toNat + size.toNat ≤ stack.toNat + taskStackSize.toNat

/-- Slot `i` has a READY task at the end of ready_q, and the heap pages from `a` on, which were
free and are mapped now, are its stack. -/
structure TaskCreated (k k' : SchedMm) (i : Fin maxTasks) (a : Nat) : Prop where
  slot : k.sched.emptySlot = some i
  free : FreeRun k.mm stackPages.toNat a
  pages : k'.mm.pages = setRun 1 k.mm.pages a stackPages.toNat
  mapped : ∀ j < stackPages.toNat, (img.kernelWalk k'.mm (img.heapVa (a + j))).map descAddr =
    some (vaToPa (img.heapVa (a + j)))
  tasks : k'.sched.tasks =
    Function.update k.sched.tasks (.pool i) (k.sched.newTask (img.heapVa a) (.pool i))
  ready : ∀ xs, Represents k.sched.next (k.sched.queues .readyQ) xs → .pool i ∉ xs →
    Represents k'.sched.next (k'.sched.queues .readyQ) (xs ++ [.pool i])
  queues : ∀ q, q ≠ .readyQ → k'.sched.queues q = k.sched.queues q
  nextTaskId : k'.sched.nextTaskId = k.sched.nextTaskId + 1
  current : k'.sched.current = k.sched.current
  writes : Logs (fun e => ∀ w ∈ e.written, InStack (img.heapVa a) w.1 w.2) k.sched k'.sched

structure NothingDone (k k' : SchedMm) : Prop where
  sched : k'.sched = { k.sched with io := k'.sched.io }
  pages : k'.mm.pages = k.mm.pages
  tables : k'.mm.tables = k.mm.tables
  writes : Logs (fun e => e.written = none) k.sched k'.sched

/-- It returns without sched_lock, has created a task or done nothing, and has stored nothing
through the null pointer. -/
def CreatesCleanly (m : LockedKernel) (o : Option LockedKernel) : Prop :=
  ∃ m', o = some m' ∧ m'.schedLock = 0 ∧
    ((∃ i a, TaskCreated img m.kernel m'.kernel i a) ∨ NothingDone m.kernel m'.kernel) ∧
    Logs (fun e => ∀ w ∈ e.written, w.1 ≠ 0) m.kernel.sched m'.kernel.sched

/-- The lowest free pages for a stack, for which page_pool has the tables that kernel_l1 lacks. -/
structure StackRoom (s : Mm) (a : Nat) : Prop where
  free : FreeRun s stackPages.toNat a
  lowest : ∀ l, l < a → ¬ FreeRun s stackPages.toNat l
  tables : missingTables img.tables s.tables .kernelL1 (img.heapVa a) stackPages.toNat ≤
    img.tables.slots - s.tables.used

variable {img} {s : Sched} {i : Fin maxTasks} {entry exit stack : Word}

def createIo (entry exit stack : Word) (s : Sched) (t : TaskRef) : List SchedIo :=
  let frame := (s.newTask stack t).frame
  [.printf "[SCHED] Created task %d\n" (some (s.newTask stack t).taskId),
   .store (frame + 248) 0x5,.store (frame + 240) exit,.store (frame + 256) entry,
   .memZero stack taskStackSize]

theorem createTask_io (hi : s.emptySlot = some i) :
    (s.createTask entry exit stack).io = createIo entry exit stack s (.pool i) ++ s.io := by
  simp only [Sched.createTask,hi]
  rfl

theorem Logs.of_io {P : SchedIo → Prop} {s' : Sched} {new : List SchedIo}
    (h : s'.io = new ++ s.io) : Logs P s s' ↔ ∀ e ∈ new, P e := by
  constructor
  · rintro ⟨new',h',hp⟩
    obtain rfl := List.append_cancel_right (h.symm.trans h')
    exact hp
  · exact fun hp => ⟨new,h,hp⟩

theorem Logs.imp {P Q : SchedIo → Prop} {s' : Sched} (h : Logs P s s') (hpq : ∀ e, P e → Q e) :
    Logs Q s s' := by
  obtain ⟨new,hio,hp⟩ := h
  exact ⟨new,hio,fun e he => hpq e (hp e he)⟩

theorem createIo_inStack {a : Nat} (ha : a + 3 ≤ maxPages) :
    ∀ e ∈ createIo entry exit (img.heapVa a) s (.pool i), ∀ w ∈ e.written,
      InStack (img.heapVa a) w.1 w.2 := by
  have hmax : maxPages = 131072 := rfl
  have h1 := toNat_heapVa img (i := a) (by omega)
  have h2 := toNat_heapBegin img
  have h3 := img.heapLow
  have hk : kernelVirtBase.toNat = 0xFFFFFFFF00000000 := rfl
  have hsize : taskStackSize.toNat = 12288 := rfl
  have hstore : ∀ off : Word, off.toNat + 8 ≤ 816 →
      InStack (img.heapVa a) ((s.newTask (img.heapVa a) (.pool i)).frame + off) 8 := by
    intro off hoff
    have hframe : (s.newTask (img.heapVa a) (.pool i)).frame = img.heapVa a + 11472 := by
      change img.heapVa a + 12288 - 816 = _
      rw [BitVec.sub_eq_add_neg,BitVec.add_assoc]
      rfl
    rw [hframe,InStack,BitVec.toNat_add,BitVec.toNat_add,hsize]
    have h8 : (8 : Word).toNat = 8 := rfl
    have hc : (11472 : Word).toNat = 11472 := rfl
    omega
  intro e he w hw
  simp only [createIo,List.mem_cons,List.not_mem_nil,or_false] at he
  rcases he with rfl | rfl | rfl | rfl | rfl <;>
    simp only [SchedIo.written,Option.mem_def,Option.some.injEq,reduceCtorEq] at hw
  · subst hw
    exact hstore 248 (by decide)
  · subst hw
    exact hstore 240 (by decide)
  · subst hw
    exact hstore 256 (by decide)
  · subst hw
    exact ⟨Nat.le_refl _,Nat.le_refl _⟩

theorem createTaskCall_noSlot {m : LockedKernel} (hi : m.kernel.sched.emptySlot = none) :
    createTaskCall img entry exit m =
      some ⟨⟨m.kernel.sched.emit (.printf "[SCHED] Error. Maximum tasks reached\n" none),
        m.kernel.mm⟩,0⟩ := by
  simp only [createTaskCall,LockedKernel.spinLock,LockedKernel.spinUnlock,Sched.createTask,hi]

theorem createTaskCall_slot {m : LockedKernel} (hi : m.kernel.sched.emptySlot = some i) :
    createTaskCall img entry exit m = (mmAllocatePagesTo img stackPages m.kernel.mm).map fun r =>
      ⟨⟨m.kernel.sched.createTask entry exit r.1,r.2⟩,0⟩ := by
  simp only [createTaskCall,LockedKernel.spinLock,LockedKernel.spinUnlock,hi]
  cases mmAllocatePagesTo img stackPages m.kernel.mm <;> rfl

theorem createTask_noSlot {m : LockedKernel} (hi : m.kernel.sched.emptySlot = none) :
    CreatesCleanly img m (createTaskCall img entry exit m) := by
  rw [createTaskCall_noSlot hi]
  refine ⟨_,rfl,rfl,.inr ⟨rfl,rfl,rfl,[_],rfl,?_⟩,[_],rfl,?_⟩
  · simp [SchedIo.written]
  · simp [SchedIo.written]

section Allocated
variable {m : LockedKernel} {a : Nat}

theorem createTask_created (hi : m.kernel.sched.emptySlot = some i)
    (hfree : FreeRun m.kernel.mm stackPages.toNat a) {mm : Mm}
    (hpages : mm.pages = setRun 1 m.kernel.mm.pages a stackPages.toNat)
    (hmapped : ∀ j < stackPages.toNat, (img.kernelWalk mm (img.heapVa (a + j))).map descAddr =
      some (vaToPa (img.heapVa (a + j)))) :
    TaskCreated img m.kernel ⟨m.kernel.sched.createTask entry exit (img.heapVa a),mm⟩ i a := by
  obtain ⟨io,heq⟩ := createTask_eq hi entry exit (img.heapVa a)
  have hwrites : Logs (fun e => ∀ w ∈ e.written, InStack (img.heapVa a) w.1 w.2) m.kernel.sched
      (m.kernel.sched.createTask entry exit (img.heapVa a)) :=
    (Logs.of_io (createTask_io hi)).mpr (createIo_inStack hfree.1)
  refine ⟨hi,hfree,hpages,hmapped,?_,fun xs hx hn => ?_,fun q hq => ?_,?_,
    createTask_current _ _ _,hwrites⟩
  · dsimp only
    rw [heq]
    rfl
  · dsimp only
    rw [heq]
    have hr := hx.enqueue hn
    simp only [Sched.taskEnqueue,Function.update_self]
    exact hr
  · dsimp only
    rw [heq]
    exact Function.update_of_ne hq _ _
  · dsimp only
    rw [heq]

theorem InStack.ne_zero {ptr size : Word} (h : InStack (img.heapVa a) ptr size)
    (ha : a < maxPages) : ptr ≠ 0 := by
  rintro rfl
  have hlow := h.1
  have hva := toNat_heapVa img ha
  have hbegin := toNat_heapBegin img
  have hk : kernelVirtBase.toNat = 0xFFFFFFFF00000000 := rfl
  have hzero : (0 : Word).toNat = 0 := rfl
  omega

theorem createTask_allocated (hpool : img.tables.pool ≠ 0)
    (hok : TablesOk img.tables m.kernel.mm.tables) (hr : m.kernel.mm.tables.ranOut = false)
    (hi : m.kernel.sched.emptySlot = some i) (hroom : StackRoom img m.kernel.mm a) :
    CreatesCleanly img m (createTaskCall img entry exit m) := by
  obtain ⟨b,hfind,hfree,hleast⟩ := findPages_least (by decide) hroom.free
  obtain rfl : b = a := Nat.le_antisymm (Nat.le_of_not_lt fun hlt => hleast a hlt hroom.free)
    (Nat.le_of_not_lt fun hlt => hroom.lowest b hlt hfree)
  have ha : b < maxPages := Nat.lt_of_lt_of_le (Nat.lt_add_of_pos_right (by decide)) hfree.1
  have hcall := mmAllocatePagesTo_found hpool hok hr (by decide) hfind hfree.1
  rw [if_pos hroom.tables] at hcall
  obtain ⟨hva,hpages,_⟩ := takePages_spec img b stackPages m.kernel.mm
  generalize takePages img b stackPages m.kernel.mm = r at hcall hva hpages
  obtain ⟨ptr,mm⟩ := r
  obtain rfl : ptr = img.heapVa b := hva
  have hmapped : ∀ j < stackPages.toNat, (img.kernelWalk mm (img.heapVa (b + j))).map descAddr =
      some (vaToPa (img.heapVa (b + j))) := by
    intro j hj
    have hpage := mmAllocatePagesTo_mapped hpool hok hr (by decide) hcall (heapVa_ne_zero img ha) hj
    rwa [heapVa_add] at hpage
  have hcreated : TaskCreated img m.kernel
      ⟨m.kernel.sched.createTask entry exit (img.heapVa b),mm⟩ i b :=
    createTask_created hi hfree hpages hmapped
  rw [createTaskCall_slot hi,hcall,Option.map_some]
  exact ⟨_,rfl,rfl,.inl ⟨i,b,hcreated⟩,hcreated.writes.imp fun e he w hw => (he w hw).ne_zero ha⟩

/-- Where it returns, it is the call of the scheduler that is run together with the allocator. -/
theorem createTaskCall_kernel (hpool : img.tables.pool ≠ 0)
    (hok : TablesOk img.tables m.kernel.mm.tables) (hr : m.kernel.mm.tables.ranOut = false)
    (c : SchedCore) {m' : LockedKernel} (hm : createTaskCall img entry exit m = some m') :
    schedMmCall img c m.kernel (.createTask entry exit) = some m'.kernel := by
  cases hi : m.kernel.sched.emptySlot with
  | none =>
    obtain rfl := Option.some.inj ((createTaskCall_noSlot hi).symm.trans hm)
    simp only [schedMmCall,hi,Sched.createTask]
  | some i =>
    rw [createTaskCall_slot hi] at hm
    obtain ⟨r,hcall,rfl⟩ := Option.map_eq_some_iff.mp hm
    simp only [schedMmCall,hi]
    rw [mmAllocatePagesTo_eq hpool hok hr (by decide) hcall]

/-- Without pages the whole stack area is zeroed, at address 0. -/
theorem createTask_null (hi : m.kernel.sched.emptySlot = some i)
    (hfind : findPages stackPages m.kernel.mm = none) :
    ∃ mm, createTaskCall img entry exit m =
        some ⟨⟨m.kernel.sched.createTask entry exit 0,mm⟩,0⟩ ∧
      ¬ CreatesCleanly img m (createTaskCall img entry exit m) := by
  have hcall : mmAllocatePagesTo img stackPages m.kernel.mm = some (0,m.kernel.mm.emit
      (.printf "[MM] ERROR: No contiguous block of %d pages found!\n" stackPages)) := by
    rw [mmAllocatePagesTo,if_neg (by decide)]
    simp only [hfind]
  rw [createTaskCall_slot hi,hcall,Option.map_some]
  refine ⟨_,rfl,?_⟩
  rintro ⟨_,hm,_,_,hwrites⟩
  obtain rfl := Option.some.inj hm
  have hnull := (Logs.of_io (createTask_io hi)).mp hwrites (.memZero 0 taskStackSize)
  exact hnull (by simp [createIo]) _ rfl rfl

end Allocated

/-- Where the page tables are as the mappers build them, create_task creates a task or changes
nothing, and never stores through the null pointer, if and only if it finds no slot, or the lowest
pages for a stack can be mapped with the tables that are left. -/
theorem createTask_clean_iff (img : KernelImage) (hpool : img.tables.pool ≠ 0)
    (entry taskExit : Word) (m : LockedKernel) (hok : TablesOk img.tables m.kernel.mm.tables)
    (hr : m.kernel.mm.tables.ranOut = false) :
    CreatesCleanly img m (createTaskCall img entry taskExit m) ↔
      m.kernel.sched.emptySlot = none ∨ ∃ a, StackRoom img m.kernel.mm a := by
  cases hi : m.kernel.sched.emptySlot with
  | none => exact iff_of_true (createTask_noSlot hi) (.inl rfl)
  | some i =>
    refine ⟨fun hclean => .inr ?_,?_⟩
    · rcases @findPages_cases stackPages (by decide) m.kernel.mm with
        ⟨a,hfind,hfree,hleast⟩ | ⟨hfind,_⟩
      · refine ⟨a,hfree,hleast,?_⟩
        by_contra htables
        have hcall := mmAllocatePagesTo_found hpool hok hr (by decide) hfind hfree.1
        rw [if_neg htables] at hcall
        rw [createTaskCall_slot hi,hcall] at hclean
        obtain ⟨_,hm,_⟩ := hclean
        exact absurd hm.symm (Option.some_ne_none _)
      · obtain ⟨_,_,hbad⟩ := @createTask_null img i entry taskExit m hi hfind
        exact absurd hclean hbad
    · rintro (h | ⟨a,hroom⟩)
      · cases h
      · exact createTask_allocated hpool hok hr hi hroom

/-- With empty tables a task is created. With those that 31 blocks of the heap have used up, none
is left for the block of the stack. -/
theorem createTask_clean_iff_tables :
    let k : SchedMm := ⟨bootSched.initSched 0,zeroMm⟩
    let full : SchedMm := ⟨bootSched.initSched 0,{ zeroMm with tables := fullTables }⟩
    CreatesCleanly testKernelImage ⟨k,0⟩ (createTaskCall testKernelImage 0x100 0x900 ⟨k,0⟩) ∧
      full.mm.tables.used = 32 ∧ ¬ CreatesCleanly testKernelImage ⟨full,0⟩
        (createTaskCall testKernelImage 0x100 0x900 ⟨full,0⟩) := by
  intro k full
  have hiff := createTask_clean_iff testKernelImage (by decide) 0x100 0x900
  have hbad : ∀ tables, TablesOk testKernelImage.tables tables → tables.ranOut = false →
      ¬ missingTables testKernelImage.tables tables .kernelL1 (testKernelImage.heapVa 0) 3 ≤
        32 - tables.used →
      let m : LockedKernel := ⟨⟨bootSched.initSched 0,{ zeroMm with tables := tables }⟩,0⟩
      ¬ CreatesCleanly testKernelImage m (createTaskCall testKernelImage 0x100 0x900 m) := by
    intro tables hok hr hmissing m hclean
    rcases (hiff m hok hr).mp hclean with hslot | ⟨a,hroom⟩
    · have hsome : (bootSched.initSched 0).emptySlot ≠ none := by decide
      exact hsome hslot
    · obtain rfl : a = 0 := Nat.eq_zero_of_not_pos fun hpos =>
        hroom.lowest 0 hpos ⟨by decide,fun _ _ => rfl⟩
      exact hmissing hroom.tables
  have hzero : TablesOk testKernelImage.tables zeroMm.tables := tablesOk_of_zero fun _ _ => rfl
  refine ⟨(hiff ⟨k,0⟩ hzero rfl).mpr (.inr ⟨0,⟨by decide,fun _ _ => rfl⟩,?_,by decide +kernel⟩),
    fullTables_facts.2.2.1,hbad fullTables fullTables_ok.1 fullTables_ok.2 (by decide +kernel)⟩
  exact fun l hl => absurd hl (Nat.not_lt_zero l)

/-- Slots are free, but every page of the heap is taken: create_task zeroes 12 KB at address 0,
and puts a task whose frame is there into ready_q. -/
theorem createTask_without_pages :
    let k : SchedMm := ⟨bootSched.initSched 0,{ zeroMm with pages := fun _ => 1 }⟩
    (∃ m', createTaskCall testKernelImage 0x100 0x900 ⟨k,0⟩ = some m' ∧
      .memZero 0 0x3000 ∈ m'.kernel.sched.io ∧
      (m'.kernel.sched.queues .readyQ).head = some (.pool 1) ∧
      (m'.kernel.sched.tasks (.pool 1)).frame = 0x2CD0) ∧
    ¬ CreatesCleanly testKernelImage ⟨k,0⟩ (createTaskCall testKernelImage 0x100 0x900 ⟨k,0⟩) := by
  intro k
  have hi : k.sched.emptySlot = some 1 := by decide
  have hnone : findPages stackPages k.mm = none := by
    rcases @findPages_cases stackPages (by decide) k.mm with ⟨a,_,hfree,_⟩ | ⟨h,_⟩
    · have hpos : 0 < stackPages.toNat := by decide
      have ha : (1 : BitVec 8) = 0 :=
        hfree.2 a (mem_run.mpr ⟨Nat.le_refl a,Nat.lt_add_of_pos_right hpos⟩)
      exact absurd ha (by decide)
    · exact h
  obtain ⟨mm,hcall,hbad⟩ :=
    @createTask_null testKernelImage 1 0x100 0x900 ⟨k,0⟩ hi hnone
  have hio : SchedIo.memZero 0 0x3000 ∈ ((bootSched.initSched 0).createTask 0x100 0x900 0).io := by
    decide
  have hqueue : (((bootSched.initSched 0).createTask 0x100 0x900 0).queues .readyQ).head =
      some (.pool 1) := by decide
  have hframe : (((bootSched.initSched 0).createTask 0x100 0x900 0).tasks (.pool 1)).frame =
      0x2CD0 := by decide
  exact ⟨⟨_,hcall,hio,hqueue,hframe⟩,hbad⟩

end Arm64

import Arm64Baremetal.El3Monitor
import Arm64Baremetal.KernelSched
import Arm64Baremetal.KernelUart
import Arm64Baremetal.SharedView
import Arm64Baremetal.StringScan

/-!
The synchronous exceptions of kernel_exception.c and kernel_puts of kernel_uart.c. The
string of SVC_CONSOLE_PRINT is read with the rights of EL1.
-/

set_option autoImplicit false

namespace Arm64
open Runs Stage1 StringScan

def svcConsolePrint : Word := 1
def ecSvc : Word := 0x15
def ecDataAbortLower : Word := 0x24
def ecDataAbort : Word := 0x25
def esrIssMask (esr : Word) : Word := esr &&& 0x1FFFFFF
def issWnr (iss : Word) : Word := (iss >>> 6) &&& 0x1
def issDfscMask (iss : Word) : Word := iss &&& 0x3F
def dfscTranslationL0 : Word := 0x4
def dfscTranslationL3 : Word := 0x7

/-- Memory by physical address. -/
abbrev ByteStore := Word → BitVec 8

def printf (fmt : String) (args : List VaArg) : List (BitVec 8) :=
  let fmt := CStr.ofString fmt
  match kernelPrintf fmt args (fmt.length + 1) freeConsoles with
  | some (_,cons) => (cons .kernel).out
  | none => []

/-- How an exception ends. On kernel_lock the core spins. -/
inductive SyncEnd where
  | returned | running | spins
  | smc (functionId : BitVec 32)
  deriving DecidableEq

def kernelPanic (f : TrapFrame) (msg : String) : List (BitVec 8) × SyncEnd :=
  (printf "[KERNEL] %s" [.ptr (some (.ofString msg))] ++ printf "[KERNEL] Register dump\n" [] ++
    printf "[KERNEL] FAR: %x ELR: %x ESR: %x\n" [.long f.far,.long f.elr,.long f.esr],
    .smc psciSystemPoweroff)

def kernelSyncElx (f : TrapFrame) : List (BitVec 8) × SyncEnd :=
  let iss := esrIssMask f.esr
  let dfsc := issDfscMask iss
  if esrEcMask f.esr = ecDataAbort ∨ esrEcMask f.esr = ecDataAbortLower then
    let head :=
      if dfscTranslationL0 ≤ dfsc ∧ dfsc ≤ dfscTranslationL3 then
        printf "Translation fault (L%d) on %s at %x\n"
          [.long (dfsc - 4),.ptr (some (.ofString (if issWnr iss ≠ 0 then "WRITE" else "READ"))),
            .long f.far]
      else printf "Data Abort. DFSC: %x, FAR: %x\n" [.long dfsc,.long f.far]
    let r := kernelPanic f "Data abort. Shutting down\n"
    (head ++ r.1,r.2)
  else kernelPanic f "Unknown exception. Reseting board!!\n"

/-- What kernel_puts prints in `n` tests of `*s`. The lock is held over the loop, so a fault
there leaves the kernel_printf of kernel_sync_elx waiting for it. -/
def kernelPuts (r : Regime) (tables : TableMem) (mem : ByteStore) (s : Word) (n : Nat) :
    List (BitVec 8) × SyncEnd :=
  let res := scan (· + 1) (r.read tables false) 0 mem n s
  (res.1,match res.2 with
    | .returned => .returned
    | .faulted => .spins
    | .running => .running)

/-- The console after `n` tests of the loop. The other texts are the kernel's own. -/
def kernelSyncEl0 (r : Regime) (tables : TableMem) (mem : ByteStore) (f : TrapFrame) (n : Nat) :
    List (BitVec 8) × SyncEnd :=
  if esrEcMask f.esr = ecSvc then
    if f.regs 8 = svcConsolePrint then kernelPuts r tables mem (f.regs 0) n
    else (consoleBytes "Unknown system call\n".toList,.returned)
  else kernelSyncElx f

def kernelSyncEl0Reads (r : Regime) (tables : TableMem) (mem : ByteStore) (f : TrapFrame)
    (n : Nat) : List Word :=
  if esrEcMask f.esr = ecSvc ∧ f.regs 8 = svcConsolePrint then
    reads (· + 1) (r.read tables false) 0 mem n (f.regs 0)
  else []

/-- The kernel's regime on each core, from any registers at reset. -/
def BootImage.el1 (img : BootImage) (s : El3Mmu) (k : KernelMmu) (regs : SchedCore → MmuRegs)
    (c : SchedCore) : Regime :=
  if c = 0 then (img.primary s k (regs c)).el1 else (img.secondary (regs c)).el1

/-- The string at x0 is open to EL0 where it starts and at the start of each page that it
runs into, unless nothing is mapped there. -/
def OwnString (r : Regime) (tables : TableMem) (mem : ByteStore) (f : TrapFrame) : Prop :=
  ∀ k, (∀ j < k, ∃ pa, r.read tables false (f.regs 0 + BitVec.ofNat 64 j) = some pa ∧
      mem pa ≠ 0) →
    k = 0 ∨ (f.regs 0 + BitVec.ofNat 64 k).toNat % 4096 = 0 →
      ∀ pa, r.read tables false (f.regs 0 + BitVec.ofNat 64 k) = some pa → r.El0Readable tables pa

section Reading
variable (img : BootImage) (s : El3Mmu) (k : KernelMmu) (regs : SchedCore → MmuRegs) (c : SchedCore)

theorem el1_on : (img.el1 s k regs c).mmuOn = true := by
  unfold BootImage.el1
  split <;> exact or_getLsbD_zero _ _ (by decide)

theorem el1_tsz (high : Bool) : (img.el1 s k regs c).tsz high = 32 := by
  refine kernelTcr_tsz ?_ high
  unfold BootImage.el1
  split <;> rfl

theorem iterate_succ_word (a : Word) (n : Nat) : (· + 1)^[n] a = a + BitVec.ofNat 64 n := by
  induction n with
  | zero => exact (BitVec.add_zero a).symm
  | succ n ih =>
    rw [Function.iterate_succ_apply',ih,BitVec.add_assoc]
    congr 1
    apply BitVec.eq_of_toNat_eq
    simp

theorem succ_page {a : Word} (h : ¬ (a + 1).toNat % 4096 = 0) : a >>> 12 = (a + 1) >>> 12 := by
  apply BitVec.eq_of_toNat_eq
  have hone : (1 : Word).toNat = 1 := rfl
  rw [BitVec.toNat_add,hone] at h
  rw [page_toNat,page_toNat,BitVec.toNat_add,hone]
  have := a.isLt
  omega

variable (tables : TableMem) (mem : ByteStore) (f : TrapFrame)

theorem reads_own_iff :
    let r := img.el1 s k regs c
    (∀ n, ∀ pa ∈ reads (· + 1) (r.read tables false) 0 mem n (f.regs 0),
      r.El0Readable tables pa) ↔ OwnString r tables mem f := by
  intro r
  have htsz : ∀ high, r.tsz high ≤ 52 := fun high =>
    (el1_tsz img s k regs c high).trans_le (by decide)
  have hsame : ∀ a pa pa', ¬ (a + 1).toNat % 4096 = 0 → r.read tables false a = some pa →
      r.read tables false (a + 1) = some pa' → r.El0Readable tables pa →
        r.El0Readable tables pa' := by
    intro a pa pa' hpage hpa hpa' hopen
    obtain ⟨q,hq,hframe,_⟩ := Regime.read_page htsz (succ_page hpage) hpa
    obtain rfl := Option.some.inj (hq.symm.trans hpa')
    exact hopen.page htsz hframe
  rw [checked_iff (· + 1) _ 0 mem (fun a => a.toNat % 4096 = 0) hsame]
  simp only [Reaches,iterate_succ_word]
  rfl

end Reading

section Tables

theorem resolve_frame (mair va : Word) {e : Entry} (h : e.below = 0) :
    (resolve mair va e).pa = (pageOf e.desc).frame ||| va &&& 0xFFF := by
  have hshift : e.shift = 12 := by rw [Entry.shift,h]
  have hmask : (0xFFF : Word) = (BitVec.allOnes 12).setWidth 64 := by decide
  apply BitVec.eq_of_getLsbD_eq
  intro i hi
  rw [resolve_getLsbD mair va e hi,hshift]
  have haddr : (pageOf e.desc).frame = e.desc &&& addrMask := rfl
  have hoff : (va &&& 0xFFF).getLsbD i = (va.getLsbD i && decide (i < 12)) := by
    rw [hmask,BitVec.getLsbD_and,BitVec.getLsbD_setWidth,BitVec.getLsbD_allOnes]
    simp [hi]
  rw [haddr,BitVec.getLsbD_or,hoff]
  by_cases hlow : i < 12
  · have hmaskLow : ∀ i < 12, addrMask.getLsbD i = false := by decide
    rw [if_pos hlow,BitVec.getLsbD_and,hmaskLow i hlow,Bool.and_false,decide_eq_true hlow,
      Bool.and_true,Bool.false_or]
  · rw [if_neg hlow,decide_eq_false hlow,Bool.and_false,Bool.or_false]

theorem pageOf_bit (d : Word) {i : Nat} (hi : (~~~0x0000FFFFFFFFF000 : Word).getLsbD i = true) :
    (pageOf d).flags.getLsbD i = d.getLsbD i := by
  rw [pageOf,BitVec.getLsbD_and,hi,Bool.and_true]

theorem sets_type {ρ : Type} (c : MapCall ρ) {n : Nat} {q : Mapping} (h : c.sets n = some q) :
    q.flags &&& 3 = 3 := by
  have htype : ∀ flags : Word, (flags ||| pteTypePage) &&& 3 = 3 := by
    intro flags
    apply BitVec.eq_of_getLsbD_eq
    intro i hi
    have hpage : pteTypePage = 3 := rfl
    simp only [hpage,BitVec.getLsbD_and,BitVec.getLsbD_or]
    cases (3 : Word).getLsbD i <;> simp
  have hflags := c.sets_flags n
  rw [h,Option.map_some] at hflags
  obtain ⟨flags,_,hq⟩ := Option.map_eq_some_iff.mp hflags.symm
  rw [← hq]
  exact htype flags

variable {ρ : Type} [DecidableEq ρ] {A : TableArea ρ} {m : Tables} {cs : List (MapCall ρ)}

theorem MapCall.lastOn_covers {key : ρ} {p : Nat} {c : MapCall ρ} (h : lastOn cs key p = some c) :
    c.Covers key p := by
  rw [lastOn] at h
  have hcovers := List.find?_some h
  exact of_decide_eq_true hcovers

/-- What the last call that covers a page allows to read there. -/
def MapCall.opens (cs : List (MapCall ρ)) (key : ρ) (el0 : Bool) (va : Word) : Option Mapping :=
  ((lastOn cs key (pageNumber va)).bind fun c => c.sets (pageNumber va)).filter fun q =>
    q.flags.getLsbD 10 && (!el0 || q.flags.getLsbD 6)

theorem opens_walk (h : Maps A m (exec MapCall.onMap (fun _ _ => none) cs)) (key : ρ) (el0 : Bool)
    (va : Word) : MapCall.opens cs key el0 va =
      (((walk m.mem (A.root key) va).filter fun d => d.getLsbD 10).filter fun d =>
        !el0 || d.getLsbD 6).map pageOf := by
  have hwalk := h.walks key va
  rw [MapCall.exec_onMap] at hwalk
  rw [MapCall.opens,← hwalk,Option.filter_filter,Option.filter_map]
  refine congrArg (Option.map pageOf) (congrArg (Option.filter · _) (funext fun d => ?_))
  rw [Function.comp_apply,pageOf_bit d (by decide),pageOf_bit d (by decide),Bool.and_comm]

theorem walk_type (h : Maps A m (exec MapCall.onMap (fun _ _ => none) cs)) {key : ρ}
    {va d : Word} (hd : walk m.mem (A.root key) va = some d) : d &&& 3 = 3 := by
  have hwalk := h.walks key va
  rw [MapCall.exec_onMap,hd,Option.map_some] at hwalk
  obtain ⟨c,_,hc⟩ := Option.bind_eq_some_iff.mp hwalk.symm
  have hmask : ~~~0x0000FFFFFFFFF000 &&& (3 : Word) = 3 := by decide
  calc d &&& 3 = (pageOf d).flags &&& 3 := by rw [pageOf,BitVec.and_assoc,hmask]
    _ = 3 := sets_type c hc

theorem read_desc {r : Regime} {mem : TableMem} {va : Word} (hon : r.mmuOn = true)
    (hpage : ∀ e, r.entry mem va = some e → e.below = 0) (el0 : Bool) : r.read mem el0 va =
      (((r.entry mem va).map Entry.desc).filter fun d => !el0 || d.getLsbD 6).map fun d =>
        (pageOf d).frame ||| va &&& 0xFFF := by
  rw [Regime.read,if_pos hon,Option.filter_map,Option.map_map]
  cases hentry : r.entry mem va with
  | none => rfl
  | some e =>
    have hel0 : e.desc.getLsbD 6 = e.el0 := rfl
    rw [Option.filter_some,Option.filter_some,Function.comp_apply,hel0]
    split
    · exact congrArg some (resolve_frame r.mair va (hpage e hentry))
    · rfl

end Tables

section Views
variable (img : BootImage) (s : El3Mmu) (k : KernelMmu) (regs : SchedCore → MmuRegs) (c : SchedCore)

theorem el1_base (high : Bool) : (img.el1 s k regs c).base high =
    img.tables.root (if high then .kernelL1 else .userL1) := by
  unfold BootImage.el1
  cases high with
  | false => split <;> exact img.rootAddr .userL1
  | true => split <;> exact img.rootAddr .kernelL1

theorem el1_read {m : Tables} {cs : List (MapCall KernelRoot)}
    (hm : Maps img.tables m (exec MapCall.onMap (fun _ _ => none) cs)) (el0 : Bool) (va : Word) :
    (img.el1 s k regs c).read m.mem el0 va = (viewRoot va).bind fun key =>
      (MapCall.opens cs key el0 va).map fun q => q.frame ||| va &&& 0xFFF := by
  have hview := view_entry img (el1_tsz img s k regs c) (el1_base img s k regs c) m.mem va
  have hpage : ∀ e, (img.el1 s k regs c).entry m.mem va = some e → e.below = 0 := by
    intro e he
    rw [he,Option.map_some] at hview
    obtain ⟨key,_,hkey⟩ := Option.bind_eq_some_iff.mp hview.symm
    exact Regime.entry_below he (walk_type hm (Option.filter_eq_some_iff.mp hkey).1)
  rw [read_desc (el1_on img s k regs c) hpage el0,hview]
  cases viewRoot va with
  | none => rfl
  | some key => rw [Option.bind_some,Option.bind_some,opens_walk hm key el0 va,Option.map_map]; rfl

theorem frame_page (w offset : Word) : (w ||| offset &&& 0xFFF) >>> 12 = w >>> 12 := by
  have hoff : (offset &&& 0xFFF) >>> 12 = 0 := by
    rw [BitVec.ushiftRight_and_distrib]
    exact BitVec.and_zero
  rw [BitVec.ushiftRight_or_distrib,hoff]
  exact BitVec.or_zero

/-- A location that EL0 can read is in a frame that a call gave to EL0. -/
theorem el0Readable_call {m : Tables} {cs : List (MapCall KernelRoot)}
    (hm : Maps img.tables m (exec MapCall.onMap (fun _ _ => none) cs)) {pa : Word}
    (h : (img.el1 s k regs c).El0Readable m.mem pa) :
    ∃ e ∈ cs, ∃ key n q, e.Covers key n ∧ e.sets n = some q ∧ q.flags.getLsbD 6 = true ∧
      pa >>> 12 = q.frame >>> 12 := by
  obtain ⟨va,hva⟩ := h
  rw [el1_read img s k regs c hm] at hva
  obtain ⟨key,_,hq⟩ := Option.bind_eq_some_iff.mp hva
  obtain ⟨q,hopens,rfl⟩ := Option.map_eq_some_iff.mp hq
  obtain ⟨hsets,hflags⟩ := Option.filter_eq_some_iff.mp hopens
  obtain ⟨e,hlast,hset⟩ := Option.bind_eq_some_iff.mp hsets
  simp only [Bool.not_true,Bool.false_or,Bool.and_eq_true] at hflags
  exact ⟨e,MapCall.lastOn_mem hlast,key,_,q,MapCall.lastOn_covers hlast,hset,hflags.2,
    frame_page q.frame va⟩

end Views

/-- The console shows nothing that EL0 cannot read, and nothing else is read, exactly when
the string is EL0's own at its start and at each page. -/
theorem console_print_iff (img : BootImage) (s : El3Mmu) (k : KernelMmu)
    (regs : SchedCore → MmuRegs) (c : SchedCore) (tables : TableMem) (mem : ByteStore)
    (f : TrapFrame) :
    let r := img.el1 s k regs c
    let own := esrEcMask f.esr = ecSvc → f.regs 8 = svcConsolePrint → OwnString r tables mem f
    ((∀ mem' : ByteStore, (∀ pa, r.El0Readable tables pa → mem' pa = mem pa) →
        ∀ n, (kernelSyncEl0 r tables mem' f n).1 = (kernelSyncEl0 r tables mem f n).1) ↔ own) ∧
    ((∀ n, ∀ pa ∈ kernelSyncEl0Reads r tables mem f n, r.El0Readable tables pa) ↔ own) := by
  intro r own
  by_cases hprint : esrEcMask f.esr = ecSvc ∧ f.regs 8 = svcConsolePrint
  · obtain ⟨hec,hcall⟩ := hprint
    have hown : own ↔ OwnString r tables mem f := ⟨fun h => h hec hcall,fun h _ _ => h⟩
    have hsecure := scan_secure_iff (· + 1) (r.read tables false) 0 mem (r.El0Readable tables)
      (by decide : (1 : BitVec 8) ≠ 0) (f.regs 0)
    have hreads := reads_own_iff img s k regs c tables mem f
    simp only [kernelSyncEl0,kernelSyncEl0Reads,hec,hcall,and_self,if_true,hown]
    exact ⟨hsecure.trans hreads,hreads⟩
  · have hown : own := fun hec hcall => absurd ⟨hec,hcall⟩ hprint
    refine ⟨⟨fun _ => hown,fun _ mem' _ n => ?_⟩,⟨fun _ => hown,fun _ n pa hpa => ?_⟩⟩
    · by_cases hec : esrEcMask f.esr = ecSvc
      · have hcall : f.regs 8 ≠ svcConsolePrint := fun hcall => hprint ⟨hec,hcall⟩
        simp only [kernelSyncEl0,if_pos hec,if_neg hcall]
      · simp only [kernelSyncEl0,if_neg hec]
    · rw [kernelSyncEl0Reads,if_neg hprint] at hpa
      exact absurd hpa List.not_mem_nil

section Leak
variable (img : BootImage)

/-- What kernel_main_thread unmaps and maps before it enters app_entry. Its symbols are
above KERNEL_VIRT_BASE. -/
def BootImage.mainThreadCalls (appEntry appStack : Word) : List (MapCall KernelRoot) :=
  let kStart := kernelVirtBase + img.kernelStart
  let kEnd := kernelVirtBase + img.kernelStack
  [.unmapRegionVirtual .userL1 kStart (kEnd - kStart),
    .mapRegionVirtual .userL1 appEntry appEntry (appStack - appEntry)
      (protNormalMem ||| apEl0RwElxRw ||| ptePxn)]

theorem kernelRun_ranOut {pre post : List (MapCall KernelRoot)} (hl : ∀ c ∈ pre ++ post, c.Legal)
    (hfit : (pre.map MapCall.budget).sum + (post.map MapCall.budget).sum ≤ 32) :
    (img.kernelRun pre post).ranOut = false := by
  have hbss : Maps img.tables Tables.bss fun _ _ => none := Maps.of_zero fun _ _ => rfl
  have hslots := img.slots
  have hused : Tables.bss.used = 0 := rfl
  have hpre : ∀ c ∈ pre, c.Legal := fun c hc => hl c (List.mem_append_left _ hc)
  have htakes := exec_takes hbss rfl hpre (by omega) 0
  have hmaps := hbss.execAt hpre htakes.2
  have hroom := htakes.1
  rw [BootImage.kernelRun,← mapCallAt_virtual]
  exact (exec_takes hmaps htakes.2 (fun c hc => hl c (List.mem_append_right _ hc)) (by omega)
    kernelVirtBase).2

end Leak

def testTables : Tables := testBootImage.kernelRun testBootImage.setupCalls
  (testBootImage.mainThreadCalls 0x402D0000 0x402F9000)

theorem testTables_maps : Maps testBootImage.tables testTables
    (exec MapCall.onMap (fun _ _ => none)
      (testBootImage.setupCalls ++ testBootImage.mainThreadCalls 0x402D0000 0x402F9000)) := by
  have hlegal : ∀ c ∈ testBootImage.setupCalls ++
      testBootImage.mainThreadCalls 0x402D0000 0x402F9000, c.Legal := by
    decide +kernel
  exact kernelRun_maps testBootImage hlegal
    (kernelRun_ranOut testBootImage hlegal (by decide +kernel))

def printFrame (x0 : Word) : TrapFrame where
  regs i := if i = 0 then x0 else if i = 8 then svcConsolePrint else 0
  spsr := 0
  elr := 0x402D0000
  esr := 0x56000000
  far := 0
  vregs _ _ := 0
  fpsr := 0
  fpcr := 0
  padding1 := 0

section Leak
variable (s : El3Mmu) (k : KernelMmu) (regs : SchedCore → MmuRegs) (c : SchedCore)

theorem kernelEnd_private :
    ¬ (testBootImage.el1 s k regs c).El0Readable testTables.mem testBootImage.kernelEnd := by
  intro h
  obtain ⟨e,he,key,n,q,hcovers,hset,hflag,hframe⟩ :=
    el0Readable_call testBootImage s k regs c testTables_maps h
  have hbit : (e.flags?.map fun flags => (flags ||| pteTypePage).getLsbD 6) = some true := by
    have hflags := e.sets_flags n
    rw [hset,Option.map_some] at hflags
    obtain ⟨flags,hflags,hq⟩ := Option.map_eq_some_iff.mp hflags.symm
    rw [hflags,Option.map_some,hq,hflag]
  have hnumber := congrArg BitVec.toNat hframe
  rw [page_toNat,page_toNat] at hnumber
  simp only [BootImage.setupCalls,BootImage.mainThreadCalls,List.cons_append,List.nil_append,
    List.mem_cons,List.not_mem_nil,or_false] at he
  obtain rfl | rfl | rfl | rfl | rfl | rfl | rfl | rfl | rfl | rfl | rfl := he
  case inr.inr.inr.inr.inl =>
    -- the page of the UART
    obtain rfl := Option.some.inj hset
    exact absurd hframe (by decide)
  case inr.inr.inr.inr.inr.inr.inr.inr.inr.inr =>
    -- the 41 pages of the application
    have hturns : pageTurns (0x402F9000 - 0x402D0000) = 41 := by decide
    have hoff := hcovers.2
    rw [hturns] at hoff
    obtain rfl := Option.some.inj hset
    have hend : testBootImage.kernelEnd.toNat = 0x40430000 := rfl
    have hstart : (0x402D0000 &&& ~~~0xFFF : Word).toNat = 0x402D0000 := rfl
    rw [BitVec.toNat_add,BitVec.toNat_ofNat,hend,hstart] at hnumber
    omega
  all_goals exact absurd hbit (by decide)

theorem kernelEnd_read : (testBootImage.el1 s k regs c).read testTables.mem false
    (kernelVirtBase + testBootImage.kernelEnd) = some testBootImage.kernelEnd := by
  have hroot : viewRoot (kernelVirtBase + testBootImage.kernelEnd) = some .kernelL1 := by decide
  have hopens : (MapCall.opens (testBootImage.setupCalls ++
      testBootImage.mainThreadCalls 0x402D0000 0x402F9000) .kernelL1 false
        (kernelVirtBase + testBootImage.kernelEnd)).map Mapping.frame =
      some testBootImage.kernelEnd := by
    decide +kernel
  obtain ⟨q,hq,hframe⟩ := Option.map_eq_some_iff.mp hopens
  rw [el1_read _ s k regs c testTables_maps,hroot,Option.bind_some,hq,Option.map_some,hframe]
  decide

end Leak

/-- app_entry can print the kernel's stack through the mappings of the kernel. -/
theorem console_leaks :
    let r := testBootImage.el1 ⟨Tables.bss,0⟩ ⟨Tables.bss,1⟩ (fun _ => zeroRegs) 0
    let f := printFrame (kernelVirtBase + testBootImage.kernelEnd)
    let zeroes : ByteStore := fun _ => 0
    let secret : ByteStore := Function.update zeroes testBootImage.kernelEnd 0x4B
    esrEcMask f.esr = ecSvc ∧ f.regs 8 = svcConsolePrint ∧
      (∀ pa, r.El0Readable testTables.mem pa → secret pa = zeroes pa) ∧
      (kernelSyncEl0 r testTables.mem zeroes f 1).1 = [] ∧
      (kernelSyncEl0 r testTables.mem secret f 1).1 = [0x4B] ∧
      testBootImage.kernelEnd ∈ kernelSyncEl0Reads r testTables.mem secret f 1 ∧
      ¬ r.El0Readable testTables.mem testBootImage.kernelEnd := by
  intro r f zeroes secret
  have hec : esrEcMask f.esr = ecSvc := by decide
  have hcall : f.regs 8 = svcConsolePrint := by decide
  have hprivate : ¬ r.El0Readable testTables.mem testBootImage.kernelEnd :=
    kernelEnd_private _ _ _ _
  have hread : r.read testTables.mem false (f.regs 0) = some testBootImage.kernelEnd :=
    kernelEnd_read _ _ _ _
  have hzero : zeroes testBootImage.kernelEnd = 0 := rfl
  have hbyte : secret testBootImage.kernelEnd = 0x4B := Function.update_self _ _ _
  have hsecret : secret testBootImage.kernelEnd ≠ 0 := by
    rw [hbyte]
    decide
  refine ⟨hec,hcall,fun pa hpa => ?_,?_,?_,?_,hprivate⟩
  · refine Function.update_of_ne ?_ _ _
    rintro rfl
    exact hprivate hpa
  · rw [kernelSyncEl0,if_pos hec,if_pos hcall,kernelPuts,scan_stop hread hzero]
  · rw [kernelSyncEl0,if_pos hec,if_pos hcall,kernelPuts,scan_go hread hsecret,hbyte]
    rfl
  · rw [kernelSyncEl0Reads,if_pos ⟨hec,hcall⟩,reads_go hread hsecret]
    exact List.mem_cons_self

end Arm64

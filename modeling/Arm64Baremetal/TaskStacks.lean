import Arm64Baremetal.KernelMm
import Arm64Baremetal.SchedZombies
import Mathlib.Data.Finset.Card

/-!
The scheduler on one core together with the page allocator of kernel_mm.c, whose only
client it is: the pages in use are the stacks of the tasks.
-/

set_option autoImplicit false

namespace Arm64
open Runs IntrusiveQueue FirstFit

/-- TASK_STACK_SIZE / PAGE_SIZE -/
def stackPages : BitVec 32 := 3

structure SchedMm where
  sched : Sched
  mm : Mm

inductive SchedMmCall where
  | createTask (entry taskExit : Word)
  | taskExit
  | msleep (ms : BitVec 32) (now : Word)
  | checkTasks (now : Word)
  | scheduleTask (frame : Word)
  | reaperService
  deriving DecidableEq

variable (img : KernelImage) (c : SchedCore)

/-- The calls of mm_free_pages in a log, the newest of which is first. -/
def freeAll (io : List SchedIo) (s : Mm) : Mm :=
  (io.filterMap freed).foldr (fun p s => mmFreePages img p.1 p.2 s) s

/-- create_task allocates when it has found a slot; `none` is as for schedOp. -/
def schedMmCall (k : SchedMm) : SchedMmCall → Option SchedMm
  | .createTask entry taskExit =>
    match k.sched.emptySlot with
    | none => some { k with sched := k.sched.createTask entry taskExit 0 }
    | some _ =>
      let r := mmAllocatePages img stackPages k.mm
      some ⟨k.sched.createTask entry taskExit r.1,r.2⟩
  | .taskExit => some { k with sched := k.sched.taskExit c }
  | .msleep ms now => some { k with sched := k.sched.msleep c ms now }
  | .checkTasks now => (k.sched.schedCheckTasks now).map fun s => { k with sched := s }
  | .scheduleTask frame => some { k with sched := (k.sched.scheduleTask c frame).2 }
  | .reaperService =>
    (({ k.sched with io := [] } : Sched).reaperService).map fun s => ⟨s,freeAll img s.io k.mm⟩

def schedMmStep (k : SchedMm) (e : SchedMmCall) : SchedMm := (schedMmCall img c k e).getD k

def SchedMmLegal (k : SchedMm) : SchedMmCall → Prop
  | .createTask entry taskExit => SchedLegal c k.sched (.createTask entry taskExit 0)
  | .taskExit => SchedLegal c k.sched .taskExit
  | .msleep ms now => SchedLegal c k.sched (.msleep ms now)
  | .checkTasks _ | .scheduleTask _ | .reaperService => True

instance (k : SchedMm) : (e : SchedMmCall) → Decidable (SchedMmLegal c k e)
  | .createTask entry taskExit =>
    inferInstanceAs (Decidable (SchedLegal c k.sched (.createTask entry taskExit 0)))
  | .taskExit => inferInstanceAs (Decidable (SchedLegal c k.sched .taskExit))
  | .msleep ms now => inferInstanceAs (Decidable (SchedLegal c k.sched (.msleep ms now)))
  | .checkTasks _ | .scheduleTask _ | .reaperService => inferInstanceAs (Decidable True)

def Sched.Used (s : Sched) (i : Fin maxTasks) : Prop := s.state (.pool i) ≠ .empty

/-- The heap pages of a task's stack, by the index that mm_free_pages has for them. -/
def SchedMm.stackRun (k : SchedMm) (i : Fin maxTasks) : Run :=
  ⟨(((k.sched.tasks (.pool i)).stackBase - img.heapBegin) / 4096).toNat,stackPages.toNat⟩

/-- Every slot in use has a stack of its own, and no other page is marked. -/
structure StacksOwned (k : SchedMm) : Prop where
  base : ∀ i, k.sched.Used i →
    (k.sched.tasks (.pool i)).stackBase = img.heapVa (k.stackRun img i).start
  bound : ∀ i, k.sched.Used i → (k.stackRun img i).start + stackPages.toNat ≤ 3 * 63
  apart : ∀ i j, k.sched.Used i → k.sched.Used j → i ≠ j →
    (k.stackRun img i).Apart (k.stackRun img j)
  marked : ∀ p, p < maxPages →
    (k.mm.pages p ≠ 0 ↔ ∃ i, k.sched.Used i ∧ p ∈ k.stackRun img i)
  low : ∀ p, p < maxPages → k.mm.pages p ≠ 0 → p < 3 * 63

/-- Blocks of three pages: block `b i` is the stack of slot `i`. -/
structure StackBlocks (k : SchedMm) (b : Fin maxTasks → Nat) : Prop where
  base : ∀ i, k.sched.Used i → (k.sched.tasks (.pool i)).stackBase = img.heapVa (3 * b i)
  low : ∀ i, k.sched.Used i → b i < 63
  inj : ∀ i j, k.sched.Used i → k.sched.Used j → b i = b j → i = j
  bytes : ∀ p, p < maxPages → k.mm.pages p = 0 ∨ k.mm.pages p = 1
  marked : ∀ p, p < maxPages → (k.mm.pages p = 1 ↔ ∃ i, k.sched.Used i ∧ p / 3 = b i)

structure SchedMmInv (k : SchedMm) (b : Fin maxTasks → Nat) : Prop where
  one : ∃ xs, OneCore c k.sched xs
  released : ZombiesReleased k.sched
  alive : ∀ t, k.sched.current c = some t → k.sched.state t ≠ .empty
  slot0 : ∀ i, i.val = 0 → ¬ k.sched.Used i
  blocks : StackBlocks img k b

variable {img c} {k : SchedMm} {b : Fin maxTasks → Nat} {s : Sched}
  {xs : QueueId → List TaskRef} {t : TaskRef}

theorem StackBlocks.stackRun (h : StackBlocks img k b) {i : Fin maxTasks} (hi : k.sched.Used i) :
    k.stackRun img i = ⟨3 * b i,3⟩ := by
  have hlow := h.low i hi
  have hmax : 3 * b i < maxPages := by
    have : maxPages = 131072 := rfl
    omega
  rw [SchedMm.stackRun,h.base i hi,heapVa_index img hmax]
  rfl

theorem mem_block {p q : Nat} : p ∈ Run.mk (3 * q) 3 ↔ p / 3 = q := by
  change 3 * q ≤ p ∧ p < 3 * q + 3 ↔ _
  omega

theorem StackBlocks.owned (h : StackBlocks img k b) : StacksOwned img k := by
  have hmarked : ∀ p, p < maxPages →
      (k.mm.pages p ≠ 0 ↔ ∃ i, k.sched.Used i ∧ p / 3 = b i) := by
    intro p hp
    rw [← h.marked p hp]
    rcases h.bytes p hp with h0 | h1
    · simp [h0]
    · simp [h1]
  refine ⟨fun i hi => ?_,fun i hi => ?_,fun i j hi hj hij => ?_,fun p hp => ?_,fun p hp hne => ?_⟩
  · rw [h.stackRun hi]
    exact h.base i hi
  · have := h.low i hi
    have h3 : stackPages.toNat = 3 := rfl
    rw [h.stackRun hi,h3]
    dsimp only
    omega
  · rw [h.stackRun hi,h.stackRun hj]
    intro p hp hp'
    exact hij (h.inj i j hi hj ((mem_block.mp hp).symm.trans (mem_block.mp hp')))
  · rw [hmarked p hp]
    refine exists_congr fun i => and_congr_right fun hi => ?_
    rw [h.stackRun hi,mem_block]
  · obtain ⟨i,hi,hpi⟩ := (hmarked p hp).mp hne
    have := h.low i hi
    omega

structure SameStacks (s s' : Sched) : Prop where
  used : ∀ i, s'.Used i ↔ s.Used i
  base : ∀ i, (s'.tasks (.pool i)).stackBase = (s.tasks (.pool i)).stackBase

theorem StackBlocks.of_same (h : StackBlocks img k b) {s' : Sched} (hs : SameStacks k.sched s') :
    StackBlocks img { k with sched := s' } b := by
  refine ⟨fun i hi => ?_,fun i hi => h.low i ((hs.used i).mp hi),fun i j hi hj => ?_,h.bytes,
    fun p hp => ?_⟩
  · exact (hs.base i).trans (h.base i ((hs.used i).mp hi))
  · exact h.inj i j ((hs.used i).mp hi) ((hs.used j).mp hj)
  · refine (h.marked p hp).trans (exists_congr fun i => ?_)
    rw [← hs.used i]

theorem SchedMmInv.of_same (h : SchedMmInv img c k b) {s' : Sched}
    (hone : ∃ xs, OneCore c s' xs) (hrel : ZombiesReleased s')
    (halive : ∀ t, s'.current c = some t → s'.state t ≠ .empty) (hs : SameStacks k.sched s') :
    SchedMmInv img c { k with sched := s' } b :=
  ⟨hone,hrel,halive,fun i hi hu => h.slot0 i hi ((hs.used i).mp hu),h.blocks.of_same hs⟩

theorem SameStacks.of_update {s' : Sched} {k : Task}
    (htasks : s'.tasks = Function.update s.tasks t k) (ht : s.state t ≠ .empty)
    (hk : k.state ≠ .empty) (hbase : k.stackBase = (s.tasks t).stackBase) : SameStacks s s' := by
  refine ⟨fun i => ?_,fun i => ?_⟩
  · unfold Sched.Used Sched.state
    rw [htasks]
    by_cases hi : .pool i = t
    · subst hi
      rw [Function.update_self]
      exact iff_of_true hk ht
    · rw [Function.update_of_ne hi]
  · rw [htasks]
    by_cases hi : .pool i = t
    · rw [hi,Function.update_self,hbase]
    · rw [Function.update_of_ne hi]

theorem Wakes.sameStacks {s' : Sched} (h : Wakes s s') : SameStacks s s' := by
  refine ⟨fun i => ?_,fun i => ?_⟩
  · unfold Sched.Used
    rcases h (.pool i) with hk | ⟨hs,hk⟩
    · rw [Sched.state,hk]
      rfl
    · rw [Sched.state,hk,hs]
      exact iff_of_true (by simp) (by simp)
  · rcases h (.pool i) with hk | ⟨_,hk⟩
    · rw [hk]
    · rw [hk]

theorem scheduleTask_sameStacks (h : OneCore c s xs) (hc : s.current c = some t)
    (ht : s.state t ≠ .empty) (frame : Word) : SameStacks s (s.scheduleTask c frame).2 := by
  obtain ⟨n,hn,hfrom⟩ := scheduleTask_takes h.inv hc frame
  obtain ⟨_,_,hst,_⟩ := scheduleTask_inv h.inv hc frame hn (h.next_free n)
  refine ⟨fun i => ?_,fun i => scheduleTask_stackBase hc frame _⟩
  constructor
  · intro hi
    by_cases hit : .pool i = t
    · rwa [Sched.Used,hit]
    by_cases hin : .pool i = n
    · rcases hfrom with hhead | hnt | hidle
      · have hready := (h.inv.filed.ready n).mp (List.mem_of_head? hhead)
        rw [Sched.Used,hin,hready]
        decide
      · exact absurd (hin.trans hnt) hit
      · exact absurd (hin.trans hidle) (by simp)
    · rw [Sched.Used,← hst (.pool i) hit hin]
      exact hi
  · intro hi
    refine (scheduleTask_keeps hc ht frame).alive (.pool i) ?_
    rw [setFrame_state]
    exact hi

theorem SchedMmInv.taskExit (h : SchedMmInv img c k b) (hl : SchedLegal c k.sched .taskExit) :
    SchedMmInv img c { k with sched := k.sched.taskExit c } b := by
  obtain ⟨xs,hone⟩ := h.one
  obtain ⟨s',ys,hs,hone'⟩ := schedOp_inv hone hl
  obtain rfl : k.sched.taskExit c = s' := Option.some.inj hs
  obtain ⟨t,ht,hr,_⟩ := hl
  have hc : k.sched.current c = some t := ht
  refine h.of_same ⟨ys,hone'⟩ (taskExit_released h.released c) (fun u hu => ?_) ?_
  · rw [taskExit_current] at hu
    exact (taskExit_keeps c).alive u (h.alive u hu)
  · simp only [Sched.taskExit,hc]
    exact .of_update rfl (h.alive t hc) (by simp) rfl

theorem SchedMmInv.msleep (h : SchedMmInv img c k b) {ms : BitVec 32} {now : Word}
    (hl : SchedLegal c k.sched (.msleep ms now)) :
    SchedMmInv img c { k with sched := k.sched.msleep c ms now } b := by
  obtain ⟨xs,hone⟩ := h.one
  obtain ⟨s',ys,hs,hone'⟩ := schedOp_inv hone hl
  obtain rfl : k.sched.msleep c ms now = s' := Option.some.inj hs
  obtain ⟨t,ht,hr,_⟩ := hl
  have hc : k.sched.current c = some t := ht
  refine h.of_same ⟨ys,hone'⟩ (msleep_released h.released c ms now) (fun u hu => ?_) ?_
  · rw [msleep_current] at hu
    exact (msleep_keeps c ms now).alive u (h.alive u hu)
  · simp only [Sched.msleep,hc]
    exact .of_update rfl (h.alive t hc) (by simp) rfl

theorem SchedMmInv.checkTasks (h : SchedMmInv img c k b) (now : Word) :
    ∃ s', k.sched.schedCheckTasks now = some s' ∧
      SchedMmInv img c { k with sched := s' } b := by
  obtain ⟨xs,hone⟩ := h.one
  obtain ⟨s',ys,hs,hcur,hw,_⟩ := schedCheckTasks_inv hone.inv now
  obtain ⟨s'',zs,hs',_,hone'⟩ := hone.checkTasks now
  obtain rfl : s' = s'' := Option.some.inj (hs.symm.trans hs')
  refine ⟨s',hs,h.of_same ⟨zs,hone'⟩ (hw.released hcur h.released) (fun u hu => ?_)
    hw.sameStacks⟩
  rw [hcur] at hu
  exact hw.keeps.alive u (h.alive u hu)

theorem SchedMmInv.schedule (h : SchedMmInv img c k b) (frame : Word) :
    SchedMmInv img c { k with sched := (k.sched.scheduleTask c frame).2 } b := by
  obtain ⟨xs,hone⟩ := h.one
  obtain ⟨t,hc⟩ := hone.running
  obtain ⟨n,hn,_⟩ := scheduleTask_takes hone.inv hc frame
  obtain ⟨hcur,hrun,_,_⟩ := scheduleTask_inv hone.inv hc frame hn (hone.next_free n)
  refine h.of_same (hone.schedule frame)
    (scheduleTask_released h.released hone.inv hc frame hn (hone.next_free n)) (fun u hu => ?_)
    (scheduleTask_sameStacks hone hc (h.alive t hc) frame)
  rw [hcur,Function.update_self,Option.some.injEq] at hu
  rw [← hu,hrun]
  decide

theorem emptySlot_pos {i : Fin maxTasks} (hi : s.emptySlot = some i) : 1 ≤ i.val := by
  have := List.find?_some hi
  simp only [decide_eq_true_eq] at this
  exact this.1

/-- With a slot of its 63 free, at most 62 blocks are in use. -/
theorem SchedMmInv.room (h : SchedMmInv img c k b) {i : Fin maxTasks}
    (hi : k.sched.emptySlot = some i) : ∃ a, a < 63 ∧ ∀ j, k.sched.Used j → b j ≠ a := by
  classical
  let zero : Fin maxTasks := ⟨0,by decide⟩
  let used := Finset.univ.filter k.sched.Used
  have hsub : used ⊆ (Finset.univ.erase i).erase zero := by
    intro j hj
    have hj : k.sched.Used j := (Finset.mem_filter.mp hj).2
    refine Finset.mem_erase.mpr ⟨?_,Finset.mem_erase.mpr ⟨?_,Finset.mem_univ j⟩⟩
    · rintro rfl
      exact h.slot0 zero rfl hj
    · rintro rfl
      exact hj (emptySlot_state hi)
  have hne : zero ≠ i := by
    rintro rfl
    exact absurd (emptySlot_pos hi) (by decide)
  have hcard : ((Finset.univ.erase i).erase zero).card = 62 := by
    rw [Finset.card_erase_of_mem (Finset.mem_erase.mpr ⟨hne,Finset.mem_univ _⟩),
      Finset.card_erase_of_mem (Finset.mem_univ i),Finset.card_univ,Fintype.card_fin]
    rfl
  have hlt : (used.image b).card < (Finset.range 63).card := by
    have h1 := Finset.card_image_le (s := used) (f := b)
    have h2 := Finset.card_le_card hsub
    rw [Finset.card_range]
    omega
  obtain ⟨a,ha,hfree⟩ := Finset.exists_mem_notMem_of_card_lt_card hlt
  refine ⟨a,Finset.mem_range.mp ha,fun j hj hja => hfree ?_⟩
  exact Finset.mem_image.mpr ⟨j,Finset.mem_filter.mpr ⟨Finset.mem_univ j,hj⟩,hja⟩

theorem StackBlocks.findPages (h : StackBlocks img k b)
    (hroom : ∃ a, a < 63 ∧ ∀ j, k.sched.Used j → b j ≠ a) :
    ∃ a, a < 63 ∧ (∀ j, k.sched.Used j → b j ≠ a) ∧
      Arm64.findPages stackPages k.mm = some (3 * a) := by
  classical
  let P : Nat → Prop := fun a => a < 63 ∧ ∀ j, k.sched.Used j → b j ≠ a
  have hP : ∃ a, P a := hroom
  obtain ⟨hlt,hfree⟩ := Nat.find_spec hP
  refine ⟨Nat.find hP,hlt,hfree,?_⟩
  have hlast : lastStart stackPages = 131069 := rfl
  have hmax : maxPages = 131072 := rfl
  rw [Arm64.findPages,hlast]
  refine search_blocks _ (B := fun q => ∃ j, k.sched.Used j ∧ q = b j) (fun p hp => ?_) ?_
    (fun a ha => ?_) (by decide) ?_
  · have hp' : p < maxPages := by
      have h3 : stackPages.toNat = 3 := rfl
      omega
    have hm := h.marked p hp'
    rw [decide_eq_true_eq,show stackPages.toNat = 3 from rfl,← hm]
    rcases h.bytes p hp' with h0 | h1
    · simp [h0]
    · simp [h1]
  · rintro ⟨j,hj,heq⟩
    exact hfree j hj heq.symm
  · have hmin := Nat.find_min hP ha
    by_contra hno
    exact hmin ⟨by omega,fun j hj heq => hno ⟨j,hj,heq.symm⟩⟩
  · have h3 : stackPages.toNat = 3 := rfl
    rw [h3]
    omega

theorem used_update {s s' : Sched} {i : Fin maxTasks} {t : Task}
    (htasks : s'.tasks = Function.update s.tasks (.pool i) t) (ht : t.state ≠ .empty)
    (j : Fin maxTasks) : s'.Used j ↔ s.Used j ∨ j = i := by
  unfold Sched.Used Sched.state
  rw [htasks]
  by_cases hj : j = i
  · rw [hj,Function.update_self]
    exact iff_of_true ht (.inr rfl)
  · rw [Function.update_of_ne fun heq => hj (TaskRef.pool.inj heq)]
    exact (or_iff_left hj).symm

theorem StackBlocks.create (h : StackBlocks img k b) {a : Nat} (ha : a < 63)
    (hfree : ∀ j, k.sched.Used j → b j ≠ a) {i : Fin maxTasks} (hi : ¬ k.sched.Used i)
    {k' : SchedMm} {t : Task}
    (htasks : k'.sched.tasks = Function.update k.sched.tasks (.pool i) t)
    (ht : t.state ≠ .empty) (hbase : t.stackBase = img.heapVa (3 * a))
    (hpages : k'.mm.pages = setRun 1 k.mm.pages (3 * a) 3) :
    StackBlocks img k' (Function.update b i a) := by
  have htask : ∀ j, j ≠ i → k'.sched.tasks (.pool j) = k.sched.tasks (.pool j) := by
    intro j hj
    rw [htasks,Function.update_of_ne fun heq => hj (TaskRef.pool.inj heq)]
  have hself : k'.sched.tasks (.pool i) = t := by rw [htasks,Function.update_self]
  have hused := used_update htasks ht
  refine ⟨fun j hj => ?_,fun j hj => ?_,fun j l hj hl hjl => ?_,fun p hp => ?_,fun p hp => ?_⟩
  · by_cases hji : j = i
    · rw [hji,hself,Function.update_self,hbase]
    · rw [htask j hji,Function.update_of_ne hji]
      exact h.base j (((hused j).mp hj).resolve_right hji)
  · by_cases hji : j = i
    · rwa [hji,Function.update_self]
    · rw [Function.update_of_ne hji]
      exact h.low j (((hused j).mp hj).resolve_right hji)
  · by_cases hji : j = i <;> by_cases hli : l = i
    · rw [hji,hli]
    · rw [hji,Function.update_self,Function.update_of_ne hli] at hjl
      exact absurd hjl.symm (hfree l (((hused l).mp hl).resolve_right hli))
    · rw [hli,Function.update_self,Function.update_of_ne hji] at hjl
      exact absurd hjl (hfree j (((hused j).mp hj).resolve_right hji))
    · rw [Function.update_of_ne hji,Function.update_of_ne hli] at hjl
      exact h.inj j l (((hused j).mp hj).resolve_right hji) (((hused l).mp hl).resolve_right hli)
        hjl
  · rw [hpages,setRun_apply]
    split
    · exact .inr rfl
    · exact h.bytes p hp
  · rw [hpages,setRun_apply]
    by_cases hpa : p / 3 = a
    · rw [if_pos (mem_block.mpr hpa)]
      exact iff_of_true rfl ⟨i,(hused i).mpr (.inr rfl),by rw [Function.update_self,hpa]⟩
    · rw [if_neg fun hm => hpa (mem_block.mp hm),h.marked p hp]
      constructor
      · rintro ⟨j,hj,hpj⟩
        have hji : j ≠ i := by
          rintro rfl
          exact hi hj
        exact ⟨j,(hused j).mpr (.inl hj),by rw [Function.update_of_ne hji,hpj]⟩
      · rintro ⟨j,hj,hpj⟩
        have hji : j ≠ i := by
          rintro rfl
          rw [Function.update_self] at hpj
          exact hpa hpj
        rw [Function.update_of_ne hji] at hpj
        exact ⟨j,((hused j).mp hj).resolve_right hji,hpj⟩

theorem mmAllocatePages_block {a : Nat} {s : Mm}
    (hs : Arm64.findPages stackPages s = some (3 * a)) :
    (mmAllocatePages img stackPages s).1 = img.heapVa (3 * a) ∧
    (mmAllocatePages img stackPages s).2.pages = setRun 1 s.pages (3 * a) 3 := by
  have h0 : stackPages ≠ 0 := by decide
  obtain ⟨hva,hpages,_⟩ := takePages_spec img (3 * a) stackPages s
  rw [mmAllocatePages_some h0 hs]
  exact ⟨hva,hpages⟩

theorem SchedMmInv.create (h : SchedMmInv img c k b) {entry exit : Word}
    (hl : SchedMmLegal c k (.createTask entry exit)) :
    ∃ k' b', schedMmCall img c k (.createTask entry exit) = some k' ∧ SchedMmInv img c k' b' := by
  obtain ⟨xs,hone⟩ := h.one
  have hone' : ∀ stack, ∃ ys, OneCore c (k.sched.createTask entry exit stack) ys := by
    intro stack
    have hl' : SchedLegal c k.sched (.createTask entry exit stack) := hl
    obtain ⟨s',ys,hs,hi⟩ := schedOp_inv hone hl'
    obtain rfl : k.sched.createTask entry exit stack = s' := Option.some.inj hs
    exact ⟨ys,hi⟩
  have halive : ∀ stack t, (k.sched.createTask entry exit stack).current c = some t →
      (k.sched.createTask entry exit stack).state t ≠ .empty := by
    intro stack t ht
    rw [createTask_current] at ht
    exact (createTask_keeps entry exit stack).alive t (h.alive t ht)
  have hrel := fun stack => createTask_released h.released entry exit stack
  cases hi : k.sched.emptySlot with
  | none =>
    have hsame : SameStacks k.sched (k.sched.createTask entry exit 0) := by
      rcases createTask_tasks (s := k.sched) entry exit 0 with ⟨i,hi',_⟩ | ⟨_,ht⟩
      · exact absurd (hi.symm.trans hi') (by simp)
      · exact ⟨fun i => by unfold Sched.Used Sched.state; rw [ht],fun i => by rw [ht]⟩
    refine ⟨_,b,by rw [schedMmCall,hi],h.of_same (hone' 0) (hrel 0) (halive 0) hsame⟩
  | some i =>
    obtain ⟨a,ha,hfree,hfind⟩ := h.blocks.findPages (h.room hi)
    obtain ⟨hptr,hpages⟩ := @mmAllocatePages_block img a _ hfind
    generalize hr : mmAllocatePages img stackPages k.mm = r at hptr hpages
    have hempty : ¬ k.sched.Used i := fun hu => hu (emptySlot_state hi)
    have htasks : (k.sched.createTask entry exit r.1).tasks = Function.update k.sched.tasks
        (.pool i) (k.sched.newTask r.1 (.pool i)) := by
      rcases createTask_tasks (s := k.sched) entry exit r.1 with ⟨j,hj,ht⟩ | ⟨hj,_⟩
      · rwa [Option.some.inj (hi.symm.trans hj)]
      · exact absurd (hi.symm.trans hj) (by simp)
    have hblocks :
        StackBlocks img ⟨k.sched.createTask entry exit r.1,r.2⟩ (Function.update b i a) :=
      h.blocks.create ha hfree hempty htasks (by simp [Sched.newTask]) hptr hpages
    refine ⟨_,_,by simp only [schedMmCall,hi,hr],hone' _,hrel _,halive _,fun j hj hu => ?_,hblocks⟩
    have hji : .pool j ≠ TaskRef.pool i := by
      rintro heq
      have := emptySlot_pos hi
      rw [← TaskRef.pool.inj heq] at this
      omega
    refine h.slot0 j hj ?_
    unfold Sched.Used Sched.state at hu ⊢
    rwa [htasks,Function.update_of_ne hji] at hu

theorem freeBlocks_pages {qs : List Nat} (hq : ∀ q ∈ qs, q < 63) (s : Mm) (p : Nat) :
    ((qs.map fun q => (img.heapVa (3 * q),stackPages)).foldr
      (fun r s => mmFreePages img r.1 r.2 s) s).pages p = if p / 3 ∈ qs then 0 else s.pages p := by
  induction qs with
  | nil => rfl
  | cons q qs ih =>
    have hmax : 3 * q < maxPages := by
      have := hq q List.mem_cons_self
      have : maxPages = 131072 := rfl
      omega
    have hrest := ih fun r hr => hq r (List.mem_cons_of_mem q hr)
    rw [List.map_cons,List.foldr_cons,(mmFreePages_parts img (heapVa_ne_zero img hmax) _ _).1,
      heapVa_index img hmax,setRun_apply,hrest]
    have hmem : p ∈ Run.mk (3 * q) stackPages.toNat ↔ p / 3 = q := mem_block
    by_cases hp : p / 3 = q
    · rw [if_pos (hmem.mpr hp),if_pos (hp ▸ List.mem_cons_self)]
    · rw [if_neg fun hm => hp (hmem.mp hm)]
      simp only [List.mem_cons,hp,false_or]

def blockOf (b : Fin maxTasks → Nat) : TaskRef → Nat
  | .pool i => b i
  | .idle _ => 0

instance (cur : SchedCore → Option TaskRef) (t : TaskRef) : Decidable (Current cur t) :=
  inferInstanceAs (Decidable (∃ d, cur d = some t))

/-- What reaper_service does: the zombies that have been switched out are gone, and their
blocks are free. -/
structure Reaped (k k' : SchedMm) (b : Fin maxTasks → Nat) : Prop where
  current : k'.sched.current = k.sched.current
  tasks : ∀ u, k'.sched.tasks u =
    if k.sched.state u = .zombie ∧ ¬ Current k.sched.current u then .zero else k.sched.tasks u
  pages : ∀ p, k'.mm.pages p = if ∃ i, k.sched.state (.pool i) = .zombie ∧
    ¬ Current k.sched.current (.pool i) ∧ p / 3 = b i then 0 else k.mm.pages p

theorem SchedMmInv.reaped (h : SchedMmInv img c k b) :
    ∃ k', schedMmCall img c k .reaperService = some k' ∧ Reaped k k' b ∧
      ∃ xs, OneCore c k'.sched xs := by
  obtain ⟨xs,hone⟩ := h.one
  have hquiet : OneCore c { k.sched with io := [] } xs :=
    ⟨⟨hone.inv.queues,hone.inv.filed,hone.inv.onStack⟩,hone.running,hone.alone⟩
  obtain ⟨s,hs,hswept,_⟩ := reaperService_sweeps hquiet.inv
  obtain ⟨s',ys,hs',hone'⟩ := hquiet.reaper
  obtain rfl : s = s' := Option.some.inj (hs.symm.trans hs')
  have hzombie := hone.inv.filed.zombie
  have hrel : ∀ u ∈ xs .zombieQ, ({ k.sched with io := [] } : Sched).released u = true := by
    intro u hu
    obtain ⟨hz,hno⟩ := (hzombie u).mp hu
    exact decide_eq_true (h.released u hz hno)
  have hpool : ∀ u ∈ xs .zombieQ, ∃ i, u = .pool i ∧ k.sched.Used i := by
    intro u hu
    obtain ⟨hz,_⟩ := (hzombie u).mp hu
    cases u with
    | pool i => exact ⟨i,rfl,by rw [Sched.Used,hz]; decide⟩
    | idle d => rcases hone.inv.filed.idle d with hi | hi <;> simp [hi] at hz
  have hfrees : s.io.filterMap freed =
      ((xs .zombieQ).reverse.map (blockOf b)).map fun q => (img.heapVa (3 * q),stackPages) := by
    rw [hswept.frees,List.filter_eq_self.mpr hrel,List.map_map]
    refine (List.append_nil _).trans (List.map_congr_left fun u hu => ?_)
    obtain ⟨i,rfl,hi⟩ := hpool u (List.mem_reverse.mp hu)
    exact Prod.ext (h.blocks.base i hi) rfl
  have hlow : ∀ q ∈ (xs .zombieQ).reverse.map (blockOf b), q < 63 := by
    intro q hq
    obtain ⟨u,hu,rfl⟩ := List.mem_map.mp hq
    obtain ⟨i,rfl,hi⟩ := hpool u (List.mem_reverse.mp hu)
    exact h.blocks.low i hi
  refine ⟨⟨s,freeAll img s.io k.mm⟩,by rw [schedMmCall,hs]; rfl,
    ⟨hswept.current,fun u => ?_,fun p => ?_⟩,ys,hone'⟩
  · rw [hswept.tasks u]
    refine if_congr ?_ rfl rfl
    rw [← hzombie u]
    exact ⟨fun hm => hm.1,fun hm => ⟨hm,hrel u hm⟩⟩
  · change (freeAll img s.io k.mm).pages p = _
    rw [freeAll,hfrees,freeBlocks_pages hlow]
    refine if_congr ?_ rfl rfl
    rw [List.mem_map]
    constructor
    · rintro ⟨u,hu,hq⟩
      have hu := List.mem_reverse.mp hu
      obtain ⟨i,rfl,_⟩ := hpool u hu
      obtain ⟨hz,hno⟩ := (hzombie _).mp hu
      exact ⟨i,hz,hno,hq.symm⟩
    · rintro ⟨i,hz,hno,hq⟩
      exact ⟨.pool i,List.mem_reverse.mpr ((hzombie _).mpr ⟨hz,hno⟩),hq.symm⟩

theorem Reaped.inv {k' : SchedMm} (hr : Reaped k k' b) (h : SchedMmInv img c k b)
    (hone : ∃ xs, OneCore c k'.sched xs) : SchedMmInv img c k' b := by
  have hstays : ∀ u, k'.sched.state u ≠ .empty →
      ¬ (k.sched.state u = .zombie ∧ ¬ Current k.sched.current u) ∧
        k'.sched.tasks u = k.sched.tasks u := by
    intro u hu
    have ht := hr.tasks u
    split at ht
    · rw [Sched.state,ht] at hu
      exact absurd rfl hu
    next hno => exact ⟨hno,ht⟩
  have hused : ∀ i, k'.sched.Used i → k.sched.Used i := by
    intro i hi
    have ht := (hstays _ hi).2
    unfold Sched.Used Sched.state at hi ⊢
    rwa [ht] at hi
  refine ⟨hone,fun u hz hno => ?_,fun u hu => ?_,fun i hi hu => h.slot0 i hi (hused i hu),
    fun i hi => ?_,fun i hi => h.blocks.low i (hused i hi),
    fun i j hi hj => h.blocks.inj i j (hused i hi) (hused j hj),fun p hp => ?_,fun p hp => ?_⟩
  · obtain ⟨hstay,ht⟩ := hstays u (by rw [hz]; decide)
    rw [Sched.state,ht] at hz
    rw [hr.current] at hno
    exact absurd ⟨hz,hno⟩ hstay
  · rw [hr.current] at hu
    have ht := hr.tasks u
    rw [if_neg fun hz => hz.2 ⟨c,hu⟩] at ht
    rw [Sched.state,ht]
    exact h.alive u hu
  · rw [(hstays _ hi).2]
    exact h.blocks.base i (hused i hi)
  · rw [hr.pages]
    split
    · exact .inl rfl
    · exact h.blocks.bytes p hp
  · rw [hr.pages]
    split
    next hex =>
      obtain ⟨i,hz,hno,hq⟩ := hex
      refine iff_of_false (by decide) ?_
      rintro ⟨j,hj,hpj⟩
      have hi : k.sched.Used i := by
        rw [Sched.Used,hz]
        decide
      obtain rfl := h.blocks.inj i j hi (hused j hj) (hq.symm.trans hpj)
      exact (hstays _ hj).1 ⟨hz,hno⟩
    next hex =>
      rw [h.blocks.marked p hp]
      constructor
      · rintro ⟨i,hi,hpi⟩
        refine ⟨i,?_,hpi⟩
        have ht := hr.tasks (.pool i)
        rw [if_neg fun hz => hex ⟨i,hz.1,hz.2,hpi⟩] at ht
        rw [Sched.Used,Sched.state,ht]
        exact hi
      · rintro ⟨i,hi,hpi⟩
        exact ⟨i,hused i hi,hpi⟩

theorem schedMmCall_inv (h : SchedMmInv img c k b) {e : SchedMmCall} (hl : SchedMmLegal c k e) :
    ∃ k' b', schedMmCall img c k e = some k' ∧ SchedMmInv img c k' b' := by
  cases e with
  | createTask entry exit => exact h.create hl
  | taskExit => exact ⟨_,b,rfl,h.taskExit hl⟩
  | msleep ms now => exact ⟨_,b,rfl,h.msleep hl⟩
  | checkTasks now =>
    obtain ⟨s,hs,hi⟩ := h.checkTasks now
    exact ⟨_,b,by rw [schedMmCall,hs]; rfl,hi⟩
  | scheduleTask frame => exact ⟨_,b,rfl,h.schedule frame⟩
  | reaperService =>
    obtain ⟨k',hk,hr,hone⟩ := h.reaped
    exact ⟨k',b,hk,hr.inv h hone⟩

def SchedMm.boot (c : SchedCore) (k : SchedMm) : SchedMm := { k with sched := k.sched.initSched c }

theorem boot_schedMmInv (hb : BeforeInit c k.sched) (hp : ∀ p, p < maxPages → k.mm.pages p = 0) :
    SchedMmInv img c (k.boot c) b := by
  have hst := initSched_state k.sched c
  have hnone : ∀ i, ¬ (k.boot c).sched.Used i := by
    intro i hu
    rw [Sched.Used] at hu
    change (k.sched.initSched c).state (.pool i) ≠ _ at hu
    rw [hst,if_neg (by simp)] at hu
    exact hu rfl
  refine ⟨⟨_,initSched_inv hb⟩,fun t hz => ?_,fun t ht => ?_,fun i _ => hnone i,
    fun i hi => absurd hi (hnone i),fun i hi => absurd hi (hnone i),
    fun i _ hi => absurd hi (hnone i),fun p hlt => .inl (hp p hlt),fun p hlt => ?_⟩
  · change (k.sched.initSched c).state t = _ at hz
    rw [hst] at hz
    split at hz <;> exact absurd hz (by decide)
  · obtain ⟨_,rfl⟩ := initSched_current hb ht
    change (k.sched.initSched c).state _ ≠ _
    rw [hst,if_pos rfl]
    decide
  · change k.mm.pages p = 1 ↔ _
    rw [hp p hlt]
    refine iff_of_false (by decide) ?_
    rintro ⟨i,hi,_⟩
    exact hnone i hi

/-- The pages in use are the stacks of the tasks, one run of pages for each; there is a run
for every free slot, and the reaper gives back slot and pages of every zombie that has been
switched out. -/
theorem stacks_owned (img : KernelImage) (c : SchedCore) {k₀ : SchedMm}
    (hb : BeforeInit c k₀.sched) (hp : ∀ p, p < maxPages → k₀.mm.pages p = 0)
    {es : List SchedMmCall}
    (hl : Along (schedMmStep img c) (SchedMmLegal c) (k₀.boot c) es) :
    let k := exec (schedMmStep img c) (k₀.boot c) es
    StacksOwned img k ∧
    (∀ e, SchedMmLegal c k e → (schedMmCall img c k e).isSome) ∧
    (∀ i, k.sched.emptySlot = some i → (mmAllocatePages img stackPages k.mm).1 ≠ 0) ∧
    ∃ k', schedMmCall img c k .reaperService = some k' ∧
      ∀ i, k.sched.state (.pool i) = .zombie → k.sched.current c ≠ some (.pool i) →
        k'.sched.state (.pool i) = .empty ∧ ∀ p ∈ k.stackRun img i, k'.mm.pages p = 0 := by
  intro k
  obtain ⟨b,hk⟩ : ∃ b, SchedMmInv img c k b := by
    refine exec_invariant (I := fun k => ∃ b, SchedMmInv img c k b) (fun k e ⟨b,hi⟩ he => ?_)
      ⟨fun _ => 0,boot_schedMmInv hb hp⟩ hl
    obtain ⟨k',b',hs,hi'⟩ := schedMmCall_inv hi he
    exact ⟨b',by rwa [schedMmStep,hs]⟩
  refine ⟨hk.blocks.owned,fun e he => ?_,fun i hi => ?_,?_⟩
  · obtain ⟨k',_,hs,_⟩ := schedMmCall_inv hk he
    simp [hs]
  · obtain ⟨a,ha,_,hfind⟩ := hk.blocks.findPages (hk.room hi)
    rw [(mmAllocatePages_block hfind).1]
    have : maxPages = 131072 := rfl
    exact heapVa_ne_zero img (by omega)
  · obtain ⟨k',hs,hr,_⟩ := hk.reaped
    obtain ⟨xs,hone⟩ := hk.one
    refine ⟨k',hs,fun i hz hcur => ?_⟩
    have hno : ¬ Current k.sched.current (.pool i) := by
      rwa [hone.current_iff]
    have hu : k.sched.Used i := by
      rw [Sched.Used,hz]
      decide
    refine ⟨?_,fun p hm => ?_⟩
    · rw [Sched.state,hr.tasks,if_pos ⟨hz,hno⟩]
      rfl
    · rw [hk.blocks.stackRun hu,mem_block] at hm
      rw [hr.pages,if_pos ⟨i,hz,hno,hm⟩]

/-- The first of two tasks exits and is reaped, and a third one gets its slot and stack. -/
theorem stacks_owned_reuse :
    let es : List SchedMmCall :=
      [.createTask 0x100 0x900,.createTask 0x200 0x900,.scheduleTask 0x30000,.taskExit,
       .scheduleTask 0x40000,.reaperService,.createTask 0x300 0x900]
    let k₀ : SchedMm := SchedMm.boot 0 ⟨bootSched,zeroMm⟩
    let k := exec (schedMmStep testKernelImage 0) k₀ es
    Along (schedMmStep testKernelImage 0) (SchedMmLegal 0) k₀ es ∧
    (List.range 8).map k.mm.pages = [1,1,1,1,1,1,0,0] ∧ StacksOwned testKernelImage k := by
  intro es k₀ k
  have hl : Along (schedMmStep testKernelImage 0) (SchedMmLegal 0) k₀ es := by decide +kernel
  have hpages : (List.range 8).map k.mm.pages = [1,1,1,1,1,1,0,0] := by decide +kernel
  exact ⟨hl,hpages,(@stacks_owned testKernelImage 0 ⟨bootSched,zeroMm⟩
    ⟨fun _ => rfl,fun _ _ => rfl⟩ (fun _ _ => rfl) es hl).1⟩

end Arm64

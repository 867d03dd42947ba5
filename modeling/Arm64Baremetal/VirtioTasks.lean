import Mathlib.Data.Fintype.Basic
import Arm64Baremetal.VirtioBlk

/-!
virtio_blk_read_sector in several tasks: one request block, one pair of descriptors and one
last_used_idx, with the statements of all calls in any order.
-/

set_option autoImplicit false

namespace Arm64.VirtioBlk
open Runs ByteMem

variable {τ : Type} [DecidableEq τ]

/-- The driver and the device, with the call under way and buf of each task. `published` counts
the increments of avail.index, and `request` is the number of the one that a task made last. -/
structure TaskBlk (τ : Type) where
  blk : Blk
  code : τ → List Stmt
  buf : τ → Nat → Byte
  published : Nat
  request : τ → Nat

namespace TaskBlk

def start (τ : Type) (b : Blk) : TaskBlk τ := ⟨b,fun _ => [],fun _ _ => 0,0,fun _ => 0⟩

def asCall (s : TaskBlk τ) (t : τ) : Blk := { s.blk with code := s.code t, buf := s.buf t }

def put (s : TaskBlk τ) (t : τ) (b : Blk) : TaskBlk τ :=
  { s with
    blk := b
    code := Function.update s.code t b.code
    buf := Function.update s.buf t b.buf }

def publish (s : TaskBlk τ) (t : τ) : TaskBlk τ :=
  { s with
    published := s.published + 1
    request := Function.update s.request t s.published }

/-- The device has not yet completed the request that was published last. -/
def Owned (s : TaskBlk τ) : Prop := s.blk.served.length < s.published

end TaskBlk

inductive TaskEvent (τ : Type) where
  | call (t : τ) (sector : BitVec 64) (buf : Nat → Byte)
  | driver (t : τ)
  | device (status : Byte) (k : Nat)

/-- Tasks are switched between any two statements. -/
def taskStep (l : Layout) (disk : Disk) (s : TaskBlk τ) : TaskEvent τ → TaskBlk τ
  | .call t sector buf => s.put t (step l disk (s.asCall t) (.call sector buf))
  | .driver t =>
      let s' := s.put t (driverStep l (s.asCall t))
      if (s.code t).head? = some .bump then s'.publish t else s'
  | .device status k => { s with blk := deviceStep disk status k s.blk }

def CallsAlone (s : TaskBlk τ) : TaskEvent τ → Prop
  | .call _ _ _ => ∀ u, s.code u = []
  | .driver _ | .device _ _ => True

def Lent (l : Layout) (x : Nat) : Prop :=
  (l.ring ≤ x ∧ x < l.ring + 32) ∨ (l.req ≤ x ∧ x < l.req + 16)

def Stmt.Reports : Stmt → Prop
  | .copy _ | .ret => True
  | _ => False

/-- The step changes nothing that the device owns, and reports no request that is not
completed. -/
def Respects (l : Layout) (disk : Disk) (s : TaskBlk τ) : TaskEvent τ → Prop
  | .driver t =>
      (s.Owned → ∀ x, Lent l x → (taskStep l disk s (.driver t)).blk.mem x = s.blk.mem x) ∧
        ∀ stmt ∈ (s.code t).head?, stmt.Reports → s.request t < s.blk.served.length
  | .call _ _ _ | .device _ _ => True

section Views
variable {l : Layout} {disk : Disk} {s : TaskBlk τ} {t u : τ}

theorem put_asCall (b : Blk) : (s.put t b).asCall t = b := by
  simp only [TaskBlk.asCall,TaskBlk.put,Function.update_self]

theorem put_other (h : u ≠ t) (b : Blk) : (s.put t b).code u = s.code u :=
  Function.update_of_ne h _ _

theorem put_idle (h : u ≠ t) : (s.put u (s.asCall u)).asCall t = s.asCall t := by
  simp only [TaskBlk.asCall,TaskBlk.put,Function.update_of_ne h.symm]

/-- The device does not see whose call is under way. -/
theorem deviceStep_call (disk : Disk) (status : Byte) (k : Nat) (b : Blk) (code : List Stmt)
    (buf : Nat → Byte) : deviceStep disk status k { b with code := code, buf := buf } =
      { deviceStep disk status k b with code := code, buf := buf } := by
  dsimp only [deviceStep]
  repeat' split
  all_goals rfl

theorem asCall_device (status : Byte) (k : Nat) :
    (taskStep l disk s (.device status k)).asCall t = deviceStep disk status k (s.asCall t) :=
  (deviceStep_call disk status k s.blk (s.code t) (s.buf t)).symm

theorem taskStep_driver (l : Layout) (disk : Disk) (s : TaskBlk τ) (t : τ) :
    let s' := taskStep l disk s (.driver t)
    s'.asCall t = driverStep l (s.asCall t) ∧ (∀ u, u ≠ t → s'.code u = s.code u) ∧
      if (s.code t).head? = some .bump then
        s'.published = s.published + 1 ∧ s'.request t = s.published
      else s'.published = s.published ∧ s'.request = s.request := by
  dsimp only [taskStep]
  split
  · exact ⟨put_asCall _,fun u hu => put_other hu _,rfl,Function.update_self _ _ _⟩
  · exact ⟨put_asCall _,fun u hu => put_other hu _,rfl,rfl⟩

theorem taskStep_call (h : s.code u = []) (sector : BitVec 64) (buf : Nat → Byte) :
    (taskStep l disk s (.call u sector buf)).asCall u =
      { s.asCall u with
        buf := buf
        code := virtioBlkReadSector l sector.toNat
        called := s.blk.called ++ [sector.toNat] } := by
  have hnone : (s.asCall u).code = [] := h
  refine (put_asCall _).trans ?_
  rw [step,hnone]
  rfl

theorem taskStep_idle (h : s.code u = []) :
    taskStep l disk s (.driver u) = s.put u (s.asCall u) := by
  have hnone : (s.code u).head? ≠ some .bump := by rw [h]; exact nofun
  have hview : (s.asCall u).code = [] := h
  rw [taskStep,if_neg hnone,driverStep,hview]

theorem put_others (h : ∀ v, v ≠ t → s.code v = []) (hu : u ≠ t) :
    ∀ v, v ≠ t → (s.put u (s.asCall u)).code v = [] := by
  intro v hv
  by_cases hvu : v = u
  · subst hvu
    exact (Function.update_self v _ _).trans (h v hu)
  · exact (put_other hvu _).trans (h v hv)

theorem respects_idle (h : s.code u = []) : Respects l disk s (.driver u) := by
  refine ⟨fun _ x _ => by rw [taskStep_idle h]; rfl,fun stmt hstmt => ?_⟩
  rw [h] at hstmt
  cases hstmt

omit [DecidableEq τ] in
theorem reports_head {stmt first : Stmt} {code : List Stmt} (hcode : s.code t = first :: code)
    (hstmt : stmt ∈ (s.code t).head?) (hr : stmt.Reports) : first.Reports := by
  rw [hcode] at hstmt
  exact Option.some.inj hstmt ▸ hr

theorem waiting_mem (h : s.code t = .notify :: .poll :: fetch 0 ∨ s.code t = .poll :: fetch 0) :
    (taskStep l disk s (.driver t)).blk.mem = s.blk.mem := by
  have hview := congrArg Blk.mem (taskStep_driver l disk s t).1
  refine Eq.trans hview ?_
  rcases h with h | h
  · have hcode : (s.asCall t).code = .notify :: .poll :: fetch 0 := h
    rw [driverStep,hcode]
    rfl
  · have hcode : (s.asCall t).code = .poll :: fetch 0 := h
    rw [driverStep,hcode]
    dsimp only
    split <;> rfl

end Views

structure Single (l : Layout) (disk : Disk) (s : TaskBlk τ) (t : τ) : Prop where
  wired : Wired l (s.asCall t)
  phase : Phase l disk (s.asCall t)
  others : ∀ u, u ≠ t → s.code u = []
  published : s.published + (if .bump ∈ s.code t then 1 else 0) = s.blk.called.length
  request : s.code t ≠ [] → .bump ∉ s.code t → s.request t + 1 = s.blk.called.length

section Steps
variable {l : Layout} {disk : Disk} {s : TaskBlk τ} {t : τ} {b : Blk}

theorem bump_notMem_fetch (i : Nat) : .bump ∉ fetch i := by
  simp [fetch]

theorem Phase.after_bump (h : Phase l disk b) {code : List Stmt} (hcode : b.code = .bump :: code) :
    code = .notify :: .poll :: fetch 0 := by
  cases h with
  | idle c hcode' => simp [hcode'] at hcode
  | storing c sector hs m ps hps hm hcode' => cases ps <;> simp [hcode'] at hcode
  | stored c sector hcode' => exact (List.cons.inj (hcode'.symm.trans hcode)).2.symm
  | waiting c sector hcode' => rcases hcode' with h | h <;> simp [h] at hcode
  | answered c sector status done hcode' => rcases hcode' with h | h <;> simp [h] at hcode
  | copying c sector status done i hcode' hi =>
    rw [hcode'] at hcode
    exact absurd (hcode ▸ List.mem_cons_self) (bump_notMem_fetch i)
  | returning c sector status done hcode' => simp [hcode'] at hcode

theorem driverStep_bump (l : Layout) {b : Blk} (h : b.code.head? ≠ some .bump) :
    (.bump ∈ (driverStep l b).code ↔ .bump ∈ b.code) ∧
      ((driverStep l b).code ≠ [] → b.code ≠ []) := by
  cases hcode : b.code with
  | nil => simp [driverStep,hcode]
  | cons stmt code =>
    rw [hcode] at h
    cases stmt with
    | bump => exact absurd rfl h
    | poll =>
      by_cases hu : usedIndex l b.mem = b.lastUsedIdx
      · simp [driverStep,hcode,hu]
      · simp [driverStep,hcode,hu]
    | _ => simp [driverStep,hcode]

theorem driverStep_called (l : Layout) (b : Blk) : (driverStep l b).called = b.called := by
  cases hcode : b.code with
  | nil => simp [driverStep,hcode]
  | cons stmt code => exact (driverStep_moves l (by simp [hcode])).2.1

theorem Single.driver (h : Single l disk s t) :
    Single l disk (taskStep l disk s (.driver t)) t := by
  obtain ⟨hview,hothers,hcount⟩ := taskStep_driver l disk s t
  generalize taskStep l disk s (.driver t) = s' at hview hothers hcount
  have hcalled : s'.blk.called = s.blk.called :=
    (congrArg Blk.called hview).trans (driverStep_called l (s.asCall t))
  have hcode : s'.code t = (driverStep l (s.asCall t)).code := congrArg Blk.code hview
  have hrest : ∀ u, u ≠ t → s'.code u = [] := fun u hu => (hothers u hu).trans (h.others u hu)
  by_cases hbump : (s.code t).head? = some .bump
  · obtain ⟨code,hcode'⟩ := List.head?_eq_some_iff.mp hbump
    have hlast := h.phase.after_bump hcode'
    have hnew : s'.code t = .notify :: .poll :: fetch 0 := by
      have hview' : (s.asCall t).code = .bump :: code := hcode'
      rw [hcode,driverStep,hview',hlast]
    have hnone : .bump ∉ s'.code t := by simp [hnew,bump_notMem_fetch]
    have hpublished := h.published
    rw [hcode',if_pos List.mem_cons_self] at hpublished
    rw [if_pos hbump] at hcount
    refine ⟨hview ▸ h.wired.driver,hview ▸ h.phase.driver h.wired,hrest,?_,fun _ _ => ?_⟩
    · rw [if_neg hnone,hcount.1,hcalled]
      exact hpublished
    · rw [hcount.2,hcalled]
      exact hpublished
  · obtain ⟨hmem,hne⟩ := @driverStep_bump l (s.asCall t) hbump
    rw [← hcode] at hmem hne
    rw [if_neg hbump] at hcount
    refine ⟨hview ▸ h.wired.driver,hview ▸ h.phase.driver h.wired,hrest,?_,fun hc hb => ?_⟩
    · rw [hcount.1,hcalled,← h.published]
      exact congrArg _ (if_congr hmem rfl rfl)
    · rw [hcount.2,hcalled]
      exact h.request (hne hc) fun hbefore => hb (hmem.mpr hbefore)

theorem Single.device (h : Single l disk s t) (status : Byte) (k : Nat) :
    Single l disk (taskStep l disk s (.device status k)) t := by
  have hview := @asCall_device τ _ l disk s t status k
  have hcalled : (taskStep l disk s (.device status k)).blk.called = s.blk.called :=
    (deviceStep_frame disk status k s.blk).called
  refine ⟨?_,?_,h.others,?_,?_⟩
  · rw [hview]
    exact h.wired.device disk status k
  · rw [hview]
    exact h.phase.device h.wired status k
  · rw [hcalled]
    exact h.published
  · rw [hcalled]
    exact h.request

/-- Between two calls it does not matter where the next one wants its data. -/
theorem Phase.between (h : Phase l disk b) (hcode : b.code = []) (buf : Nat → Byte) :
    Phase l disk { b with code := [], buf := buf } := by
  cases h with
  | idle c _ hj hc hg =>
    exact .idle c rfl hj (hc.calling buf [] b.called b.returned) ⟨hg.called,hg.returned⟩
  | storing c sector hs m ps hps hm hcode' => simp [hcode'] at hcode
  | stored c sector hcode' => simp [hcode'] at hcode
  | waiting c sector hcode' => rcases hcode' with h | h <;> simp [h] at hcode
  | answered c sector status done hcode' => rcases hcode' with h | h <;> simp [h] at hcode
  | copying c sector status done i hcode' => simp [hcode',fetch] at hcode
  | returning c sector status done hcode' => simp [hcode'] at hcode

theorem Single.call (h : Single l disk s t) (hidle : ∀ u, s.code u = []) (u : τ)
    (sector : BitVec 64) (buf : Nat → Byte) :
    Single l disk (taskStep l disk s (.call u sector buf)) u := by
  have hwired : Wired l (s.asCall u) :=
    ⟨h.wired.status,h.wired.base,h.wired.queueNum,h.wired.actualQSize⟩
  have hphase : Phase l disk (s.asCall u) := by
    have hsame : s.asCall u = { s.asCall t with code := [], buf := s.buf u } := by
      simp only [TaskBlk.asCall,hidle u]
    rw [hsame]
    exact h.phase.between (hidle t) (s.buf u)
  have hview : (taskStep l disk s (.call u sector buf)).asCall u =
      step l disk (s.asCall u) (.call sector buf) := put_asCall _
  have hbegun := @taskStep_call τ _ l disk s u (hidle u) sector buf
  have hcode : (taskStep l disk s (.call u sector buf)).code u =
      virtioBlkReadSector l sector.toNat := congrArg Blk.code hbegun
  have hcalled : (taskStep l disk s (.call u sector buf)).blk.called =
      s.blk.called ++ [sector.toNat] := congrArg Blk.called hbegun
  have hbump : .bump ∈ virtioBlkReadSector l sector.toNat := by simp [virtioBlkReadSector]
  have hpublished := h.published
  rw [hidle t,if_neg List.not_mem_nil] at hpublished
  refine ⟨hview ▸ hwired.call sector buf,hview ▸ hphase.call sector buf,
    fun v hv => (put_other hv _).trans (hidle v),?_,fun _ hb => ?_⟩
  · rw [hcode,if_pos hbump,hcalled,List.length_append,← hpublished]
    rfl
  · exact absurd (hcode ▸ hbump) hb

end Steps

section Alone
variable {l : Layout} {disk : Disk} {s : TaskBlk τ} {t : τ}

omit [DecidableEq τ] in
theorem called_length {done : List (Nat × Byte)} {cur : List Nat}
    (hg : Log disk (s.asCall t) done cur) :
    s.blk.called.length = s.blk.served.length + cur.length := by
  have := congrArg List.length hg.called
  simpa [TaskBlk.asCall] using this

omit [DecidableEq τ] in
theorem Single.waits (h : Single l disk s t) (howned : s.Owned) :
    s.code t = .notify :: .poll :: fetch 0 ∨ s.code t = .poll :: fetch 0 := by
  have hserved : s.blk.served.length < s.published := howned
  have hdone : ∀ {done : List (Nat × Byte)}, ¬ Log disk (s.asCall t) done [] := by
    intro done hg
    have hpublished := h.published
    rw [called_length hg,List.length_nil] at hpublished
    omega
  have hopen : ∀ {done : List (Nat × Byte)} {sector : Nat}, Log disk (s.asCall t) done [sector] →
      .bump ∉ s.code t := by
    intro done sector hg hbump
    have hpublished := h.published
    rw [if_pos hbump,called_length hg,List.length_singleton] at hpublished
    omega
  cases h.phase with
  | idle c hcode hj hc hg => exact absurd hg hdone
  | storing c sector hs m ps hps hm hcode hj hc hg =>
    refine absurd ?_ (hopen hg)
    rw [show s.code t = _ from hcode]
    simp
  | stored c sector hcode hr hhead hj hc hg =>
    refine absurd ?_ (hopen hg)
    rw [show s.code t = _ from hcode]
    simp
  | waiting c sector hcode => exact hcode
  | answered c sector status done hcode hl hj hc hserved' hg => exact absurd hg hdone
  | copying c sector status done i hcode hi hbuf hl hj hc hserved' hg => exact absurd hg hdone
  | returning c sector status done hcode hbuf hl hj hc hserved' hg => exact absurd hg hdone

omit [DecidableEq τ] in
theorem Single.reports (h : Single l disk s t) {stmt : Stmt} (hstmt : stmt ∈ (s.code t).head?)
    (hr : stmt.Reports) : s.request t < s.blk.served.length := by
  have hdone : ∀ {done : List (Nat × Byte)}, Log disk (s.asCall t) done [] →
      s.code t ≠ [] → .bump ∉ s.code t → s.request t < s.blk.served.length := by
    intro done hg hne hbump
    have hrequest := h.request hne hbump
    rw [called_length hg,List.length_nil] at hrequest
    omega
  cases h.phase with
  | idle c hcode =>
    have hcode : s.code t = [] := hcode
    rw [hcode] at hstmt
    cases hstmt
  | storing c sector hs m ps hps hm hcode =>
    cases ps with
    | nil => exact (reports_head hcode hstmt hr).elim
    | cons p ps => exact (reports_head hcode hstmt hr).elim
  | stored c sector hcode => exact (reports_head hcode hstmt hr).elim
  | waiting c sector hcode =>
    rcases hcode with hcode | hcode
    · exact (reports_head hcode hstmt hr).elim
    · exact (reports_head hcode hstmt hr).elim
  | answered c sector status done hcode =>
    rcases hcode with hcode | hcode
    · exact (reports_head hcode hstmt hr).elim
    · exact (reports_head hcode hstmt hr).elim
  | copying c sector status done i hcode hi hbuf hl hj hc hserved hg =>
    have hcode : s.code t = fetch i := hcode
    exact hdone hg (by simp [hcode,fetch]) (hcode ▸ bump_notMem_fetch i)
  | returning c sector status done hcode hbuf hl hj hc hserved hg =>
    have hcode : s.code t = [.ret] := hcode
    exact hdone hg (by simp [hcode]) (by simp [hcode])

theorem Single.respects (h : Single l disk s t) (e : TaskEvent τ) : Respects l disk s e := by
  cases e with
  | call u sector buf => trivial
  | device status k => trivial
  | driver u =>
    by_cases hu : u = t
    · subst hu
      exact ⟨fun howned x _ => congrFun (waiting_mem (h.waits howned)) x,
        fun stmt hstmt hr => h.reports hstmt hr⟩
    · exact respects_idle (h.others u hu)

theorem Single.idle (h : Single l disk s t) {u : τ} (hu : u ≠ t) :
    Single l disk (taskStep l disk s (.driver u)) t := by
  have hsame : (s.put u (s.asCall u)).asCall t = s.asCall t := put_idle hu
  have hself : (s.put u (s.asCall u)).code t = s.code t := congrArg Blk.code hsame
  rw [taskStep_idle (h.others u hu)]
  refine ⟨by rw [hsame]; exact h.wired,by rw [hsame]; exact h.phase,
    put_others h.others hu,?_,?_⟩
  · rw [hself]
    exact h.published
  · rw [hself]
    exact h.request

theorem Single.step (h : ∃ t, Single l disk s t) {e : TaskEvent τ} (he : CallsAlone s e) :
    ∃ t, Single l disk (taskStep l disk s e) t := by
  obtain ⟨t,h⟩ := h
  cases e with
  | call u sector buf => exact ⟨u,h.call he u sector buf⟩
  | device status k => exact ⟨t,h.device status k⟩
  | driver u =>
    by_cases hu : u = t
    · subst hu
      exact ⟨u,h.driver⟩
    · exact ⟨t,h.idle hu⟩

omit [DecidableEq τ] in
theorem Single.start {b : Blk} (h : Fresh l b) (hok : (virtioBlkInit l b).1 = 0)
    (hmax : 16 ≤ b.regs.queueNumMax.toNat) (t : τ) :
    Single l disk (.start τ (virtioBlkInit l b).2) t := by
  have hcalled : (virtioBlkInit l b).2.called = [] := by
    rw [virtioBlkInit_eq hok hmax]
    exact h.called
  have hcode : (virtioBlkInit l b).2.code = [] := by
    rw [virtioBlkInit_eq hok hmax]
    exact h.code
  have hw := wired_virtioBlkInit hok hmax
  refine ⟨⟨hw.status,hw.base,hw.queueNum,hw.actualQSize⟩,?_,fun _ _ => rfl,?_,fun hne => ?_⟩
  · exact (phase_virtioBlkInit h disk hok hmax).between hcode fun _ => 0
  · exact (congrArg List.length hcalled).symm
  · exact absurd rfl hne

end Alone

section SmallQueue

/-- With a queue of 2 to 15 entries, the device looks for avail among the descriptors that are
never used. -/
structure Deaf (l : Layout) (b : Blk) : Prop where
  base : b.regs.base = l.ring
  two : 2 ≤ b.regs.queueNum.toNat
  small : b.regs.queueNum.toNat < 16
  size : b.actualQSize = b.regs.queueNum
  unused : ∀ x, l.ring + 32 ≤ x → x < l.ring + 256 → b.mem x = 0
  lastAvail : b.lastAvail = 0
  job : b.job = .idle
  used : usedIndex l b.mem = b.lastUsedIdx

/-- Where the only call is, which comes to the loop that waits and stays there. -/
inductive Stall (l : Layout) (s : TaskBlk τ) (t : τ) : Prop
  | idle (hcode : s.code t = []) (hp : s.published = 0)
  | storing (sector : Nat) (ps : List (Nat × Nat × Nat)) (hps : ∀ p ∈ ps, p ∈ prepare l sector)
      (hcode : s.code t = ps.map .store ++ .ring :: .bump :: .notify :: .poll :: fetch 0)
      (hp : s.published = 0)
  | stored (hcode : s.code t = .bump :: .notify :: .poll :: fetch 0) (hp : s.published = 0)
  | waiting (hcode : s.code t = .notify :: .poll :: fetch 0 ∨ s.code t = .poll :: fetch 0)

structure Stalled (l : Layout) (s : TaskBlk τ) (t : τ) : Prop where
  deaf : Deaf l (s.asCall t)
  others : ∀ u, u ≠ t → s.code u = []
  stall : Stall l s t

variable {l : Layout} {disk : Disk} {s : TaskBlk τ} {t : τ} {b : Blk}

theorem Deaf.device (h : Deaf l b) (disk : Disk) (status : Byte) (k : Nat) :
    deviceStep disk status k b = b := by
  have hr := h.two
  have hs := h.small
  have havail : BitVec.ofNat 16 (load b.mem (b.regs.avail + 2) 2) = 0 := by
    rw [Regs.avail,h.base,load_of_zero fun x hx hx' => h.unused x (by omega) (by omega)]
    rfl
  simp only [deviceStep,h.job,h.lastAvail,havail,if_true,ite_self]

theorem Deaf.store (h : Deaf l b) {a n v : Nat} (hunused : Separate (l.ring + 32) 224 a n)
    (hused : Separate (l.ring + 4098) 2 a n) (code : List Stmt) :
    Deaf l { b with mem := store b.mem a n v, code := code } := by
  have hkept : ∀ x, l.ring + 32 ≤ x → x < l.ring + 256 → ByteMem.store b.mem a n v x = 0 := by
    intro x hx hx'
    unfold Separate at hunused
    exact (store_apply_of_notMem (by omega)).trans (h.unused x hx hx')
  exact ⟨h.base,h.two,h.small,h.size,hkept,h.lastAvail,h.job,(usedIndex_store hused).trans h.used⟩

theorem Deaf.calling (h : Deaf l b) (buf : Nat → Byte) (code : List Stmt) (called : List Nat) :
    Deaf l { b with buf := buf, code := code, called := called } :=
  ⟨h.base,h.two,h.small,h.size,h.unused,h.lastAvail,h.job,h.used⟩

omit [DecidableEq τ] in
theorem Stall.congr {s' : TaskBlk τ} (h : Stall l s t) (hcode : s'.code t = s.code t)
    (hp : s'.published = s.published) : Stall l s' t := by
  cases h with
  | idle hs hz => exact .idle (hcode.trans hs) (hp.trans hz)
  | storing sector ps hps hs hz => exact .storing sector ps hps (hcode.trans hs) (hp.trans hz)
  | stored hs hz => exact .stored (hcode.trans hs) (hp.trans hz)
  | waiting hs => exact .waiting (by rwa [hcode])

omit [DecidableEq τ] in
theorem Stall.published (h : Stall l s t) (hcode : s.code t = []) : s.published = 0 := by
  cases h with
  | idle _ hp => exact hp
  | storing sector ps hps hs => simp [hs] at hcode
  | stored hs => simp [hs] at hcode
  | waiting hs => rcases hs with hs | hs <;> simp [hs] at hcode

theorem prepare_unused {l : Layout} {sector : Nat} :
    ∀ p ∈ prepare l sector, Separate (l.ring + 32) 224 p.1 p.2.1 := by
  have h := l.apart
  unfold Separate at h
  simp only [prepare,List.mem_cons,forall_eq_or_imp,List.not_mem_nil,Separate,false_imp_iff,
    implies_true,and_true]
  omega

/-- Each statement of the only call leaves the device deaf. -/
theorem Stalled.driver (h : Stalled l s t) : Stalled l (taskStep l disk s (.driver t)) t := by
  obtain ⟨hview,hothers,hcount⟩ := taskStep_driver l disk s t
  generalize taskStep l disk s (.driver t) = s' at hview hothers hcount
  have hrest : ∀ u, u ≠ t → s'.code u = [] := fun u hu => (hothers u hu).trans (h.others u hu)
  have hcode' : s'.code t = (driverStep l (s.asCall t)).code := congrArg Blk.code hview
  have hdeaf := h.deaf
  cases h.stall with
  | idle hcode hp =>
    have hs : (s.asCall t).code = [] := hcode
    rw [driverStep,hs] at hview hcode'
    rw [hcode,if_neg (by decide)] at hcount
    exact ⟨hview ▸ hdeaf,hrest,.idle (hcode'.trans hcode) (hcount.1.trans hp)⟩
  | storing sector ps hps hcode hp =>
    have hs : (s.asCall t).code = ps.map .store ++ .ring :: .bump :: .notify :: .poll :: fetch 0 :=
      hcode
    rw [driverStep,hs] at hview hcode'
    rw [hcode] at hcount
    cases ps with
    | nil =>
      have hmod : (availIndex l (s.asCall t).mem).toNat % (s.asCall t).actualQSize.toNat < 16 := by
        have htwo := hdeaf.two
        have hsmall := hdeaf.small
        rw [hdeaf.size]
        exact (Nat.mod_lt _ (by omega)).trans hsmall
      rw [if_neg (by simp)] at hcount
      refine ⟨hview ▸ hdeaf.store ?_ ?_ _,hrest,.stored hcode' (hcount.1.trans hp)⟩
      · unfold Separate
        omega
      · unfold Separate
        omega
    | cons p ps =>
      have hp' := hps p List.mem_cons_self
      have hused := @prepare_apart l sector (l.ring + 4098) (by omega) (by omega) p hp'
      rw [if_neg (by simp)] at hcount
      exact ⟨hview ▸ hdeaf.store (prepare_unused p hp') hused _,hrest,
        .storing sector ps (fun q hq => hps q (List.mem_cons_of_mem p hq)) hcode'
          (hcount.1.trans hp)⟩
  | stored hcode hp =>
    have hs : (s.asCall t).code = .bump :: .notify :: .poll :: fetch 0 := hcode
    rw [driverStep,hs] at hview hcode'
    refine ⟨hview ▸ hdeaf.store ?_ ?_ _,hrest,.waiting (.inl hcode')⟩
    · unfold Separate
      omega
    · unfold Separate
      omega
  | waiting hcode =>
    rcases hcode with hcode | hcode
    · have hs : (s.asCall t).code = .notify :: .poll :: fetch 0 := hcode
      rw [driverStep,hs] at hview hcode'
      exact ⟨hview ▸ hdeaf.calling _ _ _,hrest,.waiting (.inr hcode')⟩
    · have hs : (s.asCall t).code = .poll :: fetch 0 := hcode
      have hstay : driverStep l (s.asCall t) = s.asCall t := by
        simp only [driverStep,hs,if_pos hdeaf.used]
      rw [hstay] at hview hcode'
      exact ⟨hview ▸ hdeaf,hrest,.waiting (.inr (hcode'.trans hcode))⟩

theorem Stalled.respects (h : Stalled l s t) (e : TaskEvent τ) : Respects l disk s e := by
  cases e with
  | call u sector buf => trivial
  | device status k => trivial
  | driver u =>
    by_cases hu : u = t
    · subst hu
      have hfree : s.published = 0 → ¬ s.Owned := fun hp ho => by
        unfold TaskBlk.Owned at ho
        omega
      cases h.stall with
      | idle hcode hp => exact respects_idle hcode
      | storing sector ps hps hcode hp =>
        refine ⟨fun ho => absurd ho (hfree hp),fun stmt hstmt hr => ?_⟩
        cases ps with
        | nil => exact (reports_head hcode hstmt hr).elim
        | cons p ps => exact (reports_head hcode hstmt hr).elim
      | stored hcode hp =>
        exact ⟨fun ho => absurd ho (hfree hp),fun stmt hstmt hr =>
          (reports_head hcode hstmt hr).elim⟩
      | waiting hcode =>
        refine ⟨fun _ x _ => congrFun (waiting_mem hcode) x,fun stmt hstmt hr => ?_⟩
        rcases hcode with hcode | hcode
        · exact (reports_head hcode hstmt hr).elim
        · exact (reports_head hcode hstmt hr).elim
    · exact respects_idle (h.others u hu)

theorem Stalled.call (h : Stalled l s t) (hidle : ∀ u, s.code u = []) (u : τ)
    (sector : BitVec 64) (buf : Nat → Byte) :
    Stalled l (taskStep l disk s (.call u sector buf)) u := by
  have hview := @taskStep_call τ _ l disk s u (hidle u) sector buf
  refine ⟨hview ▸ h.deaf.calling _ _ _,fun v hv => (put_other hv _).trans (hidle v),?_⟩
  exact .storing sector.toNat _ (fun _ hp => hp) (congrArg Blk.code hview)
    (h.stall.published (hidle t))

theorem Stalled.step (h : ∃ t, Stalled l s t) {e : TaskEvent τ} (he : CallsAlone s e) :
    ∃ t, Stalled l (taskStep l disk s e) t := by
  obtain ⟨t,h⟩ := h
  cases e with
  | call u sector buf => exact ⟨u,h.call he u sector buf⟩
  | device status k =>
    refine ⟨t,?_,h.others,h.stall.congr rfl rfl⟩
    rw [asCall_device,h.deaf.device]
    exact h.deaf
  | driver u =>
    by_cases hu : u = t
    · subst hu
      exact ⟨u,h.driver⟩
    · have hsame : (s.put u (s.asCall u)).asCall t = s.asCall t := put_idle hu
      rw [taskStep_idle (h.others u hu)]
      exact ⟨t,by rw [hsame]; exact h.deaf,put_others h.others hu,
        h.stall.congr (congrArg Blk.code hsame) rfl⟩

omit [DecidableEq τ] in
theorem Stalled.start (h : Fresh l b) (hok : (virtioBlkInit l b).1 = 0)
    (htwo : 2 ≤ b.regs.queueNumMax.toNat) (hmax : b.regs.queueNumMax.toNat < 16) (t : τ) :
    Stalled l (.start τ (virtioBlkInit l b).2) t := by
  have hq : b.regs.queueNumMax < 16 := hmax
  have hinit := virtioBlkInit_ok hok
  rw [if_pos hq] at hinit
  refine ⟨?_,fun _ _ => rfl,.idle rfl rfl⟩
  have hzero : ∀ x, l.ring + 32 ≤ x → x < l.ring + 256 → b.mem x = 0 := fun x hx hx' =>
    h.ring x (by omega) (by omega)
  simp only [TaskBlk.start,TaskBlk.asCall,hinit]
  exact ⟨ring_base l,htwo,hmax,rfl,hzero,rfl,rfl,h.index_zero (by omega) (by omega)⟩

end SmallQueue

/-- While no two calls are under way at once, no statement touches what the device owns, and no
call reports a request that is not completed. -/
theorem descriptors_kept {l : Layout} {b : Blk} (h : Fresh l b) (hok : (virtioBlkInit l b).1 = 0)
    (hmax : 2 ≤ b.regs.queueNumMax.toNat) (disk : Disk) {evs : List (TaskEvent τ)}
    (hevs : Along (taskStep l disk) CallsAlone (.start τ (virtioBlkInit l b).2) evs) :
    Along (taskStep l disk) (Respects l disk) (.start τ (virtioBlkInit l b).2) evs := by
  cases isEmpty_or_nonempty τ with
  | inl hnobody =>
    refine (along_true (taskStep l disk) _ evs).imp fun s e _ => ?_
    cases e with
    | driver t => exact hnobody.elim t
    | call t sector buf => trivial
    | device status k => trivial
  | inr hsome =>
    obtain ⟨t⟩ := hsome
    rcases Nat.lt_or_ge b.regs.queueNumMax.toNat 16 with hsmall | hlarge
    · exact hevs.of_invariant (I := fun s => ∃ t, Stalled l s t)
        (fun s e hs he => Stalled.step hs he) (fun s e hs _ => hs.choose_spec.respects e)
        ⟨t,Stalled.start h hok hmax hsmall t⟩
    · exact hevs.of_invariant (I := fun s => ∃ t, Single l disk s t)
        (fun s e hs he => Single.step hs he) (fun s e hs _ => hs.choose_spec.respects e)
        ⟨t,Single.start h hok hlarge t⟩

/-- Two calls that overlap: the first request is out when the second call stores its sector. -/
def overlap : List (TaskEvent Bool) :=
  .call false 5 (fun _ => 0) :: List.replicate 13 (.driver false) ++
    [.call true 6 (fun _ => 0),.driver true]

instance {τ : Type} [Fintype τ] (s : TaskBlk τ) :
    (e : TaskEvent τ) → Decidable (CallsAlone s e)
  | .call _ _ _ => inferInstanceAs (Decidable (∀ _, _))
  | .driver _ | .device _ _ => inferInstanceAs (Decidable True)

/-- A call of task `t` from its first statement to its last. The device owns the request in
between, and the call comes to its wait loop meanwhile. -/
def wholeCall (t : Bool) (sector : BitVec 64) : List (TaskEvent Bool) :=
  .call t sector (fun _ => 0) :: List.replicate 14 (.driver t) ++
    List.replicate 200 (.device 0 0) ++ .driver t :: List.replicate 318 (.device 0 0) ++
    List.replicate 515 (.driver t)

set_option maxRecDepth 100000 in
theorem descriptors_kept_two :
    let evs := wholeCall false 5 ++ wholeCall true 6
    let start := TaskBlk.start Bool (virtioBlkInit exampleLayout exampleBlk).2
    (exec (taskStep exampleLayout exampleDisk) start evs).published = 2 ∧
      Along (taskStep exampleLayout exampleDisk) (Respects exampleLayout exampleDisk)
        start evs := by
  intro evs start
  have hrun : Along (taskStep exampleLayout exampleDisk) CallsAlone start evs ∧
      (exec (taskStep exampleLayout exampleDisk) start evs).published = 2 := by
    decide +kernel
  exact ⟨hrun.2,@descriptors_kept Bool _ exampleLayout exampleBlk
    ⟨fun _ _ _ => rfl,rfl,rfl,rfl,rfl⟩ (by decide) (by decide) exampleDisk evs hrun.1⟩

theorem descriptors_overwritten :
    ¬ Along (taskStep exampleLayout exampleDisk) (Respects exampleLayout exampleDisk)
      (.start Bool (virtioBlkInit exampleLayout exampleBlk).2) (overlap ++ [.driver true]) := by
  intro h
  have hlast := ((along_append _ _ _ _ _).mp h).2.1
  have hkept := hlast.1 (by unfold TaskBlk.Owned; decide +kernel) (exampleLayout.req + 8)
    (.inr (by decide))
  exact absurd hkept (by decide +kernel)

end Arm64.VirtioBlk

import Mathlib.Algebra.Ring.Nat
import Mathlib.Data.List.Basic
import Arm64Baremetal.ByteMem
import Arm64Baremetal.Runs

/-!
The instructions of A64 that save and restore registers: pair loads and stores off a base
register, moves from and to system registers, and changes of the stack pointer. Blocks of
stores and blocks of loads are read off as one effect.
-/

set_option autoImplicit false

namespace A64
open Runs

abbrev Mem := BitVec 64 → ByteMem.Byte

/-- Memory as seen from `p` up. -/
def window (m : Mem) (p : BitVec 64) : ByteMem.Mem := fun k => m (p + BitVec.ofNat 64 k)

def storeBytes (m : Mem) (a : BitVec 64) : Nat → Nat → Mem
  | 0, _ => m
  | n + 1, v => Function.update (storeBytes m (a + 1) n (v / 256)) a (BitVec.ofNat 8 v)

def load64 (m : Mem) (a : BitVec 64) : BitVec 64 := BitVec.ofNat 64 (ByteMem.load (window m a) 0 8)

def store64 (m : Mem) (w : BitVec 64 × BitVec 64) : Mem := storeBytes m w.1 8 w.2.toNat

/-- Stores of an offset from `p`, a number of bytes and a value, in order. -/
def storeAt (m : Mem) (p : BitVec 64) (ps : List (Nat × Nat × Nat)) : Mem :=
  ps.foldl (fun m q => storeBytes m (p + BitVec.ofNat 64 q.1) q.2.1 q.2.2) m

section Window

variable {m : Mem} {p : BitVec 64}

theorem window_add (m : Mem) (p : BitVec 64) (a k : Nat) :
    window m (p + BitVec.ofNat 64 a) k = window m p (a + k) := by
  simp only [window,BitVec.ofNat_add,BitVec.add_assoc]

theorem load_window_add (m : Mem) (p : BitVec 64) (a b n : Nat) :
    ByteMem.load (window m (p + BitVec.ofNat 64 a)) b n = ByteMem.load (window m p) (a + b) n := by
  induction n generalizing b with
  | zero => rfl
  | succ n ih => rw [ByteMem.load,ByteMem.load,window_add,ih (b + 1),Nat.add_assoc]

theorem load64_add (m : Mem) (p : BitVec 64) (a : Nat) :
    load64 m (p + BitVec.ofNat 64 a) = BitVec.ofNat 64 (ByteMem.load (window m p) a 8) := by
  rw [load64,load_window_add,Nat.add_zero]

theorem load_eight (w : ByteMem.Mem) (a : Nat) :
    ByteMem.load w a 8 = ByteMem.load w a 4 + 4294967296 * ByteMem.load w (a + 4) 4 ∧
      ByteMem.load w a 4 < 4294967296 ∧ ByteMem.load w (a + 4) 4 < 4294967296 :=
  ⟨ByteMem.load_add w a 4 4,ByteMem.load_lt w a 4,ByteMem.load_lt w (a + 4) 4⟩

theorem load_low (w : ByteMem.Mem) (a : Nat) :
    BitVec.ofNat 32 (ByteMem.load w a 4) =
      (BitVec.ofNat 64 (ByteMem.load w a 8)).setWidth 32 := by
  obtain ⟨h,hl,hh⟩ := load_eight w a
  apply BitVec.eq_of_toNat_eq
  rw [BitVec.toNat_setWidth,BitVec.toNat_ofNat,BitVec.toNat_ofNat]
  omega

theorem load_high (w : ByteMem.Mem) (a : Nat) :
    BitVec.ofNat 32 (ByteMem.load w (a + 4) 4) =
      (BitVec.ofNat 64 (ByteMem.load w a 8) >>> 32).setWidth 32 := by
  obtain ⟨h,hl,hh⟩ := load_eight w a
  apply BitVec.eq_of_toNat_eq
  rw [BitVec.toNat_setWidth,BitVec.toNat_ushiftRight,BitVec.toNat_ofNat,BitVec.toNat_ofNat,
    Nat.shiftRight_eq_div_pow]
  omega

theorem add_ofNat_inj {a b : Nat} (ha : a < 2 ^ 64) (hb : b < 2 ^ 64)
    (h : p + BitVec.ofNat 64 a = p + BitVec.ofNat 64 b) : a = b := by
  have ht := congrArg BitVec.toNat (BitVec.add_right_inj p |>.mp h)
  rwa [BitVec.toNat_ofNat,BitVec.toNat_ofNat,Nat.mod_eq_of_lt ha,Nat.mod_eq_of_lt hb] at ht

theorem window_storeBytes {w : ByteMem.Mem} (hw : ∀ k < 2 ^ 64, window m p k = w k) {a n v : Nat}
    (ha : a + n ≤ 2 ^ 64) :
    ∀ k < 2 ^ 64, window (storeBytes m (p + BitVec.ofNat 64 a) n v) p k =
      ByteMem.store w a n v k := by
  intro k hk
  induction n generalizing a v with
  | zero => exact hw k hk
  | succ n ih =>
    have hp : p + BitVec.ofNat 64 a + 1 = p + BitVec.ofNat 64 (a + 1) := by
      rw [BitVec.ofNat_add,BitVec.add_assoc]
      rfl
    have hr : window (storeBytes m (p + BitVec.ofNat 64 a + 1) n (v / 256)) p k =
        ByteMem.store w (a + 1) n (v / 256) k := by
      rw [hp]
      exact ih (by omega)
    by_cases hak : k = a
    · subst hak
      rw [ByteMem.store,Function.update_self]
      exact Function.update_self _ _ _
    · have hne : p + BitVec.ofNat 64 k ≠ p + BitVec.ofNat 64 a :=
        fun h => hak (add_ofNat_inj hk (by omega) h)
      rw [ByteMem.store,Function.update_of_ne hak,← hr]
      exact Function.update_of_ne hne _ _

theorem window_storeAt {w : ByteMem.Mem} (hw : ∀ k < 2 ^ 64, window m p k = w k)
    {ps : List (Nat × Nat × Nat)} (hps : ∀ q ∈ ps, q.1 + q.2.1 ≤ 2 ^ 64) :
    ∀ k < 2 ^ 64, window (storeAt m p ps) p k = ByteMem.storeAll w ps k := by
  induction ps generalizing m w with
  | nil => exact hw
  | cons q ps ih =>
    exact ih (window_storeBytes hw (hps q List.mem_cons_self))
      fun r hr => hps r (List.mem_cons_of_mem _ hr)

/-- Places, by offset and length, that have no byte in common and do not wrap. -/
structure Apart (ps : List (Nat × Nat)) : Prop where
  bound : ∀ q ∈ ps, q.1 + q.2 ≤ 2 ^ 64
  separate : ps.Pairwise fun q r => ByteMem.Separate q.1 q.2 r.1 r.2

def places (ps : List (Nat × Nat × Nat)) : List (Nat × Nat) := ps.map fun q => (q.1,q.2.1)

theorem Apart.bound_of_mem {ps : List (Nat × Nat × Nat)} (h : Apart (places ps)) :
    ∀ q ∈ ps, q.1 + q.2.1 ≤ 2 ^ 64 :=
  fun q hq => h.bound (q.1,q.2.1) (List.mem_map_of_mem hq)

theorem load_storeAt {ps : List (Nat × Nat × Nat)} (h : Apart (places ps)) {q : Nat × Nat × Nat}
    (hq : q ∈ ps) (hv : q.2.2 < 256 ^ q.2.1) :
    ByteMem.load (window (storeAt m p ps) p) q.1 q.2.1 = q.2.2 := by
  have hb := h.bound_of_mem q hq
  rw [← ByteMem.load_storeAll (List.pairwise_map.mp h.separate) hq hv]
  exact ByteMem.load_congr fun k _ hk =>
    window_storeAt (fun _ _ => rfl) h.bound_of_mem k (by omega)

theorem load_storeAt_of_separate {ps : List (Nat × Nat × Nat)} (h : Apart (places ps)) {a n : Nat}
    (ha : a + n ≤ 2 ^ 64) (hs : ∀ q ∈ places ps, ByteMem.Separate a n q.1 q.2) :
    ByteMem.load (window (storeAt m p ps) p) a n = ByteMem.load (window m p) a n := by
  refine Eq.trans ?_ (ByteMem.load_storeAll_of_separate fun q hq =>
    hs (q.1,q.2.1) (List.mem_map_of_mem hq))
  exact ByteMem.load_congr fun k _ hk =>
    window_storeAt (fun _ _ => rfl) h.bound_of_mem k (by omega)

end Window

inductive Base where
  | sp
  | x (r : Nat)

/-- Instructions over the system registers `σ`. Register numbers are below 31 for `x` and
below 32 for `q`, and offsets are multiples that the encoding allows. -/
inductive Insn (σ : Type) where
  | subSp (imm : Nat)
  | addSp (imm : Nat)
  | addXSp (d imm : Nat)
  | stp (a b : Nat) (p : Base) (off : Nat)
  | str (a : Nat) (p : Base) (off : Nat)
  | stpQ (a b : Nat) (p : Base) (off : Nat)
  | ldp (a b : Nat) (p : Base) (off : Nat)
  | ldr (a : Nat) (p : Base) (off : Nat)
  | ldpQ (a b : Nat) (p : Base) (off : Nat)
  | mrs (d : Nat) (r : σ)
  | msr (r : σ) (a : Nat)

/-- `q (r,0)` and `q (r,1)` are the low and the high half of a vector register. -/
structure State (σ : Type) where
  x : Nat → BitVec 64
  q : Nat × Nat → BitVec 64
  sp : BitVec 64
  sys : σ → BitVec 64
  mem : Mem

section Step

variable {σ : Type}

def State.addr (s : State σ) (p : Base) (off : Nat) : BitVec 64 :=
  (match p with | .sp => s.sp | .x r => s.x r) + BitVec.ofNat 64 off

def State.writes (s : State σ) : Insn σ → List (BitVec 64 × BitVec 64)
  | .stp a b p off => [(s.addr p off,s.x a),(s.addr p (off + 8),s.x b)]
  | .str a p off => [(s.addr p off,s.x a)]
  | .stpQ a b p off =>
    [(s.addr p off,s.q (a,0)),(s.addr p (off + 8),s.q (a,1)),
      (s.addr p (off + 16),s.q (b,0)),(s.addr p (off + 24),s.q (b,1))]
  | _ => []

def State.load (s : State σ) (p : Base) (off : Nat) : BitVec 64 := load64 s.mem (s.addr p off)

def State.reads (s : State σ) : Insn σ → List (Nat × BitVec 64)
  | .ldp a b p off => [(a,s.load p off),(b,s.load p (off + 8))]
  | .ldr a p off => [(a,s.load p off)]
  | _ => []

def State.readsQ (s : State σ) : Insn σ → List ((Nat × Nat) × BitVec 64)
  | .ldpQ a b p off =>
    [((a,0),s.load p off),((a,1),s.load p (off + 8)),
      ((b,0),s.load p (off + 16)),((b,1),s.load p (off + 24))]
  | _ => []

def setAll {κ : Type} [DecidableEq κ] (f : κ → BitVec 64) (ps : List (κ × BitVec 64)) :
    κ → BitVec 64 :=
  ps.foldl (fun f q => Function.update f q.1 q.2) f

def Insn.IsStore : Insn σ → Prop
  | .stp .. | .str .. | .stpQ .. => True
  | _ => False

instance : (i : Insn σ) → Decidable i.IsStore
  | .stp .. | .str .. | .stpQ .. => inferInstanceAs (Decidable True)
  | .subSp _ | .addSp _ | .addXSp .. | .ldp .. | .ldr .. | .ldpQ .. | .mrs .. | .msr .. =>
    inferInstanceAs (Decidable False)

def Insn.IsLoad : Insn σ → Prop
  | .ldp _ _ .sp _ | .ldr _ .sp _ => True
  | _ => False

def Insn.IsLoadQ : Insn σ → Prop
  | .ldpQ _ _ .sp _ => True
  | _ => False

theorem writes_mem (s : State σ) (m : Mem) (i : Insn σ) :
    State.writes { s with mem := m } i = s.writes i := by
  cases i <;> rfl

theorem reads_x {i : Insn σ} (h : i.IsLoad) (s : State σ) (x : Nat → BitVec 64) :
    State.reads { s with x := x } i = s.reads i := by
  cases i with
  | ldp a b p off =>
    cases p with
    | sp => rfl
    | x r => exact h.elim
  | ldr a p off =>
    cases p with
    | sp => rfl
    | x r => exact h.elim
  | _ => rfl

theorem readsQ_q (s : State σ) (q : Nat × Nat → BitVec 64) (i : Insn σ) :
    State.readsQ { s with q := q } i = s.readsQ i := by
  cases i <;> rfl

variable [DecidableEq σ]

def step (s : State σ) (i : Insn σ) : State σ :=
  match i with
  | .subSp imm => { s with sp := s.sp - BitVec.ofNat 64 imm }
  | .addSp imm => { s with sp := s.sp + BitVec.ofNat 64 imm }
  | .addXSp d imm => { s with x := Function.update s.x d (s.sp + BitVec.ofNat 64 imm) }
  | .stp .. | .str .. | .stpQ .. => { s with mem := (s.writes i).foldl store64 s.mem }
  | .ldp .. | .ldr .. => { s with x := setAll s.x (s.reads i) }
  | .ldpQ .. => { s with q := setAll s.q (s.readsQ i) }
  | .mrs d r => { s with x := Function.update s.x d (s.sys r) }
  | .msr r a => { s with sys := Function.update s.sys r (s.x a) }

def execAll (s : State σ) (is : List (Insn σ)) : State σ := exec step s is

theorem execAll_cons (s : State σ) (i : Insn σ) (is : List (Insn σ)) :
    execAll s (i :: is) = execAll (step s i) is := rfl

theorem execAll_append (s : State σ) (is js : List (Insn σ)) :
    execAll s (is ++ js) = execAll (execAll s is) js := exec_append step s is js

theorem step_store {i : Insn σ} (h : i.IsStore) (s : State σ) :
    step s i = { s with mem := (s.writes i).foldl store64 s.mem } := by
  cases i <;> first | rfl | exact h.elim

theorem step_load {i : Insn σ} (h : i.IsLoad) (s : State σ) :
    step s i = { s with x := setAll s.x (s.reads i) } := by
  cases i <;> first | rfl | exact h.elim

theorem step_loadQ {i : Insn σ} (h : i.IsLoadQ) (s : State σ) :
    step s i = { s with q := setAll s.q (s.readsQ i) } := by
  cases i <;> first | rfl | exact h.elim

theorem exec_stores {is : List (Insn σ)} (h : ∀ i ∈ is, i.IsStore) (s : State σ) :
    execAll s is = { s with mem := (is.flatMap s.writes).foldl store64 s.mem } := by
  induction is generalizing s with
  | nil => rfl
  | cons i is ih =>
    have hw : is.flatMap (State.writes (step s i)) = is.flatMap s.writes := by
      rw [step_store (h i List.mem_cons_self)]
      exact List.flatMap_congr fun j _ => writes_mem s _ j
    rw [execAll_cons,ih (fun j hj => h j (List.mem_cons_of_mem _ hj)),hw,
      step_store (h i List.mem_cons_self),List.flatMap_cons,List.foldl_append]

theorem exec_loads {is : List (Insn σ)} (h : ∀ i ∈ is, i.IsLoad) (s : State σ) :
    execAll s is = { s with x := setAll s.x (is.flatMap s.reads) } := by
  induction is generalizing s with
  | nil => rfl
  | cons i is ih =>
    have hr : is.flatMap (State.reads (step s i)) = is.flatMap s.reads := by
      rw [step_load (h i List.mem_cons_self)]
      exact List.flatMap_congr fun j hj => reads_x (h j (List.mem_cons_of_mem _ hj)) s _
    rw [execAll_cons,ih (fun j hj => h j (List.mem_cons_of_mem _ hj)),hr,
      step_load (h i List.mem_cons_self),List.flatMap_cons]
    simp only [setAll,List.foldl_append]

theorem exec_loadsQ {is : List (Insn σ)} (h : ∀ i ∈ is, i.IsLoadQ) (s : State σ) :
    execAll s is = { s with q := setAll s.q (is.flatMap s.readsQ) } := by
  induction is generalizing s with
  | nil => rfl
  | cons i is ih =>
    have hr : is.flatMap (State.readsQ (step s i)) = is.flatMap s.readsQ := by
      rw [step_loadQ (h i List.mem_cons_self)]
      exact List.flatMap_congr fun j _ => readsQ_q s _ j
    rw [execAll_cons,ih (fun j hj => h j (List.mem_cons_of_mem _ hj)),hr,
      step_loadQ (h i List.mem_cons_self),List.flatMap_cons]
    simp only [setAll,List.foldl_append]

end Step

theorem setAll_map {κ : Type} [DecidableEq κ] (f g : κ → BitVec 64) (ks : List κ) (k : κ) :
    setAll f (ks.map fun k => (k,g k)) k = if k ∈ ks then g k else f k := by
  induction ks generalizing f with
  | nil => rfl
  | cons a ks ih =>
    have hs : setAll f ((a :: ks).map fun k => (k,g k)) k =
        setAll (Function.update f a (g a)) (ks.map fun k => (k,g k)) k := rfl
    rw [hs,ih]
    by_cases hk : k ∈ ks
    · rw [if_pos hk,if_pos (List.mem_cons_of_mem _ hk)]
    · by_cases ha : k = a
      · subst ha
        rw [if_neg hk,if_pos List.mem_cons_self,Function.update_self]
      · rw [if_neg hk,if_neg (by simp [ha,hk]),Function.update_of_ne ha]

theorem foldl_store64 (m : Mem) (p : BitVec 64) (ws : List (Nat × BitVec 64)) :
    (ws.map fun w => (p + BitVec.ofNat 64 w.1,w.2)).foldl store64 m =
      storeAt m p (ws.map fun w => (w.1,8,w.2.toNat)) := by
  rw [storeAt,List.foldl_map,List.foldl_map]
  rfl

theorem storeAt_append (m : Mem) (p : BitVec 64) (ps qs : List (Nat × Nat × Nat)) :
    storeAt m p (ps ++ qs) = storeAt (storeAt m p ps) p qs := List.foldl_append

end A64

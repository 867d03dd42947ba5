import Mathlib.Algebra.Ring.Nat
import Mathlib.Logic.Function.Basic

set_option autoImplicit false

namespace ByteMem

abbrev Byte := BitVec 8
abbrev Mem := Nat → Byte

/-- The number in the `n` bytes from `a` on. -/
def load (m : Mem) (a : Nat) : Nat → Nat
  | 0 => 0
  | n + 1 => (m a).toNat + 256 * load m (a + 1) n

def store (m : Mem) (a : Nat) : Nat → Nat → Mem
  | 0, _ => m
  | n + 1, v => Function.update (store m (a + 1) n (v / 256)) a (BitVec.ofNat 8 v)

/-- The `n` bytes from `a` on and the `k` bytes from `b` on have none in common. -/
def Separate (a n b k : Nat) : Prop := a + n ≤ b ∨ b + k ≤ a

instance (a n b k : Nat) : Decidable (Separate a n b k) := inferInstanceAs (Decidable (_ ∨ _))

theorem load_congr {m m' : Mem} {a n : Nat} (h : ∀ x, a ≤ x → x < a + n → m x = m' x) :
    load m a n = load m' a n := by
  induction n generalizing a with
  | zero => rfl
  | succ n ih =>
    rw [load,load,h a (by omega) (by omega),ih fun x hx hx' => h x (by omega) (by omega)]

theorem load_lt (m : Mem) (a n : Nat) : load m a n < 256 ^ n := by
  induction n generalizing a with
  | zero => exact Nat.one_pos
  | succ n ih =>
    have hb := (m a).isLt
    have hr := ih (a + 1)
    rw [load,Nat.pow_succ]
    omega

theorem load_add (m : Mem) (a n k : Nat) :
    load m a (n + k) = load m a n + 256 ^ n * load m (a + n) k := by
  induction n generalizing a with
  | zero => simp [load]
  | succ n ih =>
    have ha : a + 1 + n = a + (n + 1) := by omega
    have hp : 256 ^ (n + 1) = 256 * 256 ^ n := by rw [Nat.pow_succ,Nat.mul_comm]
    rw [Nat.succ_add,load,load,ih (a + 1),ha,hp,Nat.mul_add,Nat.mul_assoc,Nat.add_assoc]

theorem load_of_zero {m : Mem} {a n : Nat} (h : ∀ x, a ≤ x → x < a + n → m x = 0) :
    load m a n = 0 := by
  induction n generalizing a with
  | zero => rfl
  | succ n ih =>
    rw [load,h a (by omega) (by omega),ih fun x hx hx' => h x (by omega) (by omega)]
    rfl

theorem store_apply_of_notMem {m : Mem} {a n v x : Nat} (h : x < a ∨ a + n ≤ x) :
    store m a n v x = m x := by
  induction n generalizing a v with
  | zero => rfl
  | succ n ih => rw [store,Function.update_of_ne (by omega),ih (by omega)]

theorem load_store {m : Mem} {a n v : Nat} (h : v < 256 ^ n) : load (store m a n v) a n = v := by
  induction n generalizing a v with
  | zero =>
    rw [load]
    omega
  | succ n ih =>
    have hrest : load (Function.update (store m (a + 1) n (v / 256)) a (BitVec.ofNat 8 v)) (a + 1) n
        = load (store m (a + 1) n (v / 256)) (a + 1) n :=
      load_congr fun x hx _ => Function.update_of_ne (by omega) _ _
    have hv : v / 256 < 256 ^ n := Nat.div_lt_of_lt_mul (by rwa [Nat.pow_succ,Nat.mul_comm] at h)
    rw [store,load,Function.update_self,hrest,ih hv,BitVec.toNat_ofNat]
    exact Nat.mod_add_div v 256

theorem load_store_of_separate {m : Mem} {a n b k v : Nat} (h : Separate a n b k) :
    load (store m b k v) a n = load m a n := by
  refine load_congr fun x hx hx' => store_apply_of_notMem ?_
  rcases h with h | h
  · left
    omega
  · right
    omega

/-- Stores of an address, a number of bytes and a value, in order. -/
def storeAll (m : Mem) (ps : List (Nat × Nat × Nat)) : Mem :=
  ps.foldl (fun m p => store m p.1 p.2.1 p.2.2) m

theorem storeAll_cons (m : Mem) (p : Nat × Nat × Nat) (ps : List (Nat × Nat × Nat)) :
    storeAll m (p :: ps) = storeAll (store m p.1 p.2.1 p.2.2) ps := rfl

theorem load_storeAll_of_separate {m : Mem} {a n : Nat} {ps : List (Nat × Nat × Nat)}
    (h : ∀ p ∈ ps, Separate a n p.1 p.2.1) : load (storeAll m ps) a n = load m a n := by
  induction ps generalizing m with
  | nil => rfl
  | cons p ps ih =>
    rw [storeAll_cons,ih fun q hq => h q (List.mem_cons_of_mem _ hq),
      load_store_of_separate (h p List.mem_cons_self)]

theorem load_storeAll {m : Mem} {ps : List (Nat × Nat × Nat)}
    (h : ps.Pairwise fun p q => Separate p.1 p.2.1 q.1 q.2.1) {p : Nat × Nat × Nat} (hp : p ∈ ps)
    (hv : p.2.2 < 256 ^ p.2.1) : load (storeAll m ps) p.1 p.2.1 = p.2.2 := by
  induction ps generalizing m with
  | nil => cases hp
  | cons q ps ih =>
    obtain ⟨hq,hps⟩ := List.pairwise_cons.mp h
    rw [storeAll_cons]
    rcases List.mem_cons.mp hp with rfl | hp
    · rw [load_storeAll_of_separate hq,load_store hv]
    · exact ih hps hp

/-- The offsets of the members of a C struct, given by size and alignment: each member is
at the next multiple of its alignment. -/
def offsets (o : Nat) : List (Nat × Nat) → List Nat
  | [] => []
  | (n,a) :: fs => (o + a - 1) / a * a :: offsets ((o + a - 1) / a * a + n) fs

end ByteMem

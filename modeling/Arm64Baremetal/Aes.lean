import Mathlib.Algebra.Ring.Nat
import Mathlib.Data.Finite.Prod
import Mathlib.Data.Fintype.Card
import Mathlib.Data.List.Range
import Mathlib.Logic.Function.Basic
import Mathlib.Tactic.FinCases

/-!
AES-128 as FIPS-197 defines it, on bytes, and the four AES instructions of the Arm
architecture.
-/

set_option autoImplicit false

namespace Aes

abbrev Byte := BitVec 8

/-- Sixteen bytes in the order of memory. -/
abbrev Block := Fin 16 → Byte

abbrev Col := Fin 4 → Byte

section Field

/-- Multiplication by x modulo x^8+x^4+x^3+x+1. -/
def xtime (b : Byte) : Byte := b <<< 1 ^^^ (if b.msb then 0x1B else 0)

/-- The product in GF(2^8), by Horner's rule on the bits of `a`. -/
def mul (a b : Byte) : Byte :=
  [7,6,5,4,3,2,1,0].foldl (fun acc i => xtime acc ^^^ if a.getLsbD i then b else 0) 0

def sq (b : Byte) : Byte := mul b b

/-- The multiplicative inverse b^254, which is 0 for 0. -/
def inv (b : Byte) : Byte :=
  let b2 := sq b
  let b4 := sq b2
  let b8 := sq b4
  let b16 := sq b8
  let b32 := sq b16
  let b64 := sq b32
  let b128 := sq b64
  mul b2 (mul b4 (mul b8 (mul b16 (mul b32 (mul b64 b128)))))

theorem xtime_xor (a b : Byte) : xtime (a ^^^ b) = xtime a ^^^ xtime b := by
  have hmsb : (a ^^^ b).msb = (a.msb ^^ b.msb) := BitVec.msb_xor
  have hshift : (a ^^^ b) <<< 1 = a <<< 1 ^^^ b <<< 1 := BitVec.shiftLeft_xor_distrib a b 1
  unfold xtime
  rw [hmsb,hshift]
  generalize a <<< 1 = a',b <<< 1 = b'
  cases a.msb <;> cases b.msb
  all_goals
    apply BitVec.eq_of_getLsbD_eq
    intro i _
    simp
  all_goals grind

theorem mul_xor (c a b : Byte) : mul c (a ^^^ b) = mul c a ^^^ mul c b := by
  have hfold : ∀ (l : List Nat) (r r' : Byte),
      l.foldl (fun acc i => xtime acc ^^^ if c.getLsbD i then a ^^^ b else 0) (r ^^^ r') =
        l.foldl (fun acc i => xtime acc ^^^ if c.getLsbD i then a else 0) r ^^^
        l.foldl (fun acc i => xtime acc ^^^ if c.getLsbD i then b else 0) r' := by
    intro l
    induction l with
    | nil => exact fun _ _ => rfl
    | cons i l ih =>
      intro r r'
      have hacc : (xtime (r ^^^ r') ^^^ if c.getLsbD i then a ^^^ b else 0) =
          (xtime r ^^^ if c.getLsbD i then a else 0) ^^^
          (xtime r' ^^^ if c.getLsbD i then b else 0) := by
        rw [xtime_xor]
        cases c.getLsbD i with
        | false => simp
        | true => simp only [if_true]; ac_rfl
      rw [List.foldl_cons,hacc]
      exact ih _ _
  exact hfold _ 0 0

theorem xtime_zero : xtime 0#8 = 0#8 := by decide

theorem mul_2 (b : Byte) : mul 2 b = xtime b := by simp [mul,xtime_zero]

theorem mul_3 (b : Byte) : mul 3 b = xtime b ^^^ b := by simp [mul,xtime_zero]

theorem mul_9 (b : Byte) : mul 9 b = xtime (xtime (xtime b)) ^^^ b := by simp [mul,xtime_zero]

theorem mul_B (b : Byte) : mul 0x0B b = xtime (xtime (xtime b) ^^^ b) ^^^ b := by
  simp [mul,xtime_zero]

theorem mul_D (b : Byte) : mul 0x0D b = xtime (xtime (xtime b ^^^ b)) ^^^ b := by
  simp [mul,xtime_zero]

theorem mul_E (b : Byte) : mul 0x0E b = xtime (xtime (xtime b ^^^ b) ^^^ b) := by
  simp [mul,xtime_zero]

end Field

section Nat

def xtimeNat (n : Nat) : Nat := Nat.xor (Nat.mul 2 n) (Nat.mul (Nat.shiftRight n 7) 0x11B)

def hornerNat (a b acc i : Nat) : Nat :=
  Nat.xor (xtimeNat acc) (Nat.mul (Nat.land (Nat.shiftRight a i) 1) b)

/-- `mul` on numbers, for which the kernel has fast operations. -/
def mulNat (a b : Nat) : Nat :=
  let h := hornerNat a b
  h (h (h (h (h (h (h (h 0 7) 6) 5) 4) 3) 2) 1) 0

def invNat (b : Nat) : Nat :=
  let b2 := mulNat b b
  let b4 := mulNat b2 b2
  let b8 := mulNat b4 b4
  let b16 := mulNat b8 b8
  let b32 := mulNat b16 b16
  let b64 := mulNat b32 b32
  let b128 := mulNat b64 b64
  mulNat b2 (mulNat b4 (mulNat b8 (mulNat b16 (mulNat b32 (mulNat b64 b128)))))

theorem forall_byte {p : Byte → Prop} (h : ∀ n : Fin 256, p (BitVec.ofFin n)) (b : Byte) : p b :=
  h b.toFin

theorem toNat_xtime : ∀ b : Byte, (xtime b).toNat = xtimeNat b.toNat :=
  forall_byte (by decide +kernel)

theorem toNat_horner (a b acc : Byte) (i : Nat) :
    (xtime acc ^^^ if a.getLsbD i then b else 0).toNat =
      hornerNat a.toNat b.toNat acc.toNat i := by
  have hbit : Nat.land (Nat.shiftRight a.toNat i) 1 = (a.getLsbD i).toNat := by
    rw [BitVec.getLsbD,Nat.toNat_testBit]
    exact (Nat.and_one_is_mod _).trans (by rw [← Nat.shiftRight_eq_div_pow]; rfl)
  rw [hornerNat,hbit,BitVec.toNat_xor,toNat_xtime]
  cases a.getLsbD i with
  | false => simp
  | true => simp

theorem toNat_mul (a b : Byte) : (mul a b).toNat = mulNat a.toNat b.toNat := by
  simp only [mul,mulNat,List.foldl_cons,List.foldl_nil,toNat_horner]
  rfl

theorem toNat_inv (b : Byte) : (inv b).toNat = invNat b.toNat := by
  simp only [inv,invNat,sq,toNat_mul]

end Nat

section SBox

/-- The affine transformation of SubBytes: five bits of `b` and one of 0x63 at each place. -/
def affine (b : Byte) : Byte :=
  b ^^^ b.rotateLeft 1 ^^^ b.rotateLeft 2 ^^^ b.rotateLeft 3 ^^^ b.rotateLeft 4 ^^^ 0x63

def invAffine (b : Byte) : Byte :=
  b.rotateLeft 1 ^^^ b.rotateLeft 3 ^^^ b.rotateLeft 6 ^^^ 0x05

def subByte (b : Byte) : Byte := affine (inv b)
def invSubByte (b : Byte) : Byte := inv (invAffine b)

theorem inv_eq (b : Byte) : inv b = BitVec.ofNat 8 (invNat b.toNat) := by
  rw [← toNat_inv,BitVec.ofNat_toNat,BitVec.setWidth_eq]

theorem invSubByte_subByte (b : Byte) : invSubByte (subByte b) = b := by
  have h : ∀ b : Byte, BitVec.ofNat 8 (invNat
      (invAffine (affine (BitVec.ofNat 8 (invNat b.toNat)))).toNat) = b :=
    forall_byte (by decide +kernel)
  rw [invSubByte,subByte,inv_eq,inv_eq,h]

end SBox

section State

theorem mod_four_lt (n : Nat) : n % 4 < 4 := Nat.mod_lt n (by decide)
theorem row_lt (i : Fin 16) : i.val % 4 < 4 := mod_four_lt i.val
theorem col_lt (i : Fin 16) : i.val / 4 < 4 := by have := i.isLt; omega
theorem index_lt (r c : Fin 4) : r.val + 4 * c.val < 16 := by have := r.isLt; omega

def row (i : Fin 16) : Fin 4 := ⟨i.val % 4,row_lt i⟩
def col (i : Fin 16) : Fin 4 := ⟨i.val / 4,col_lt i⟩

/-- `n` places on from `r`, around the four. -/
def turn (r : Fin 4) (n : Nat) : Fin 4 := ⟨(r.val + n) % 4,mod_four_lt _⟩

def cell (s : Block) (r c : Fin 4) : Byte := s ⟨r.val + 4 * c.val,index_lt r c⟩

def ofCells (f : Fin 4 → Fin 4 → Byte) : Block := fun i => f (row i) (col i)

def xor (s k : Block) : Block := fun i => s i ^^^ k i

def subBytes (s : Block) : Block := fun i => subByte (s i)
def invSubBytes (s : Block) : Block := fun i => invSubByte (s i)

def shiftRows (s : Block) : Block := ofCells fun r c => cell s r (turn c r.val)
def invShiftRows (s : Block) : Block := ofCells fun r c => cell s r (turn c (4 - r.val))

def mixColumns (s : Block) : Block := ofCells fun r c =>
  mul 2 (cell s r c) ^^^ mul 3 (cell s (turn r 1) c) ^^^ cell s (turn r 2) c ^^^
    cell s (turn r 3) c

def invMixColumns (s : Block) : Block := ofCells fun r c =>
  mul 0x0E (cell s r c) ^^^ mul 0x0B (cell s (turn r 1) c) ^^^ mul 0x0D (cell s (turn r 2) c) ^^^
    mul 0x09 (cell s (turn r 3) c)

theorem row_index (r c : Fin 4) : row ⟨r.val + 4 * c.val,index_lt r c⟩ = r := by
  apply Fin.ext
  simp only [row]
  omega

theorem col_index (r c : Fin 4) : col ⟨r.val + 4 * c.val,index_lt r c⟩ = c := by
  apply Fin.ext
  simp only [col]
  omega

@[simp] theorem cell_ofCells (f : Fin 4 → Fin 4 → Byte) (r c : Fin 4) :
    cell (ofCells f) r c = f r c := by
  rw [cell,ofCells,row_index,col_index]

theorem ofCells_cell (s : Block) : ofCells (cell s) = s := by
  funext i
  rw [ofCells,cell]
  congr 1
  apply Fin.ext
  simp only [row,col]
  omega

theorem turn_turn (r : Fin 4) (m n : Nat) : turn (turn r m) n = turn r (m + n) := by
  apply Fin.ext
  simp only [turn]
  omega

theorem turn_four (r : Fin 4) (n : Nat) : turn r (n + 4) = turn r n := by
  apply Fin.ext
  simp only [turn]
  omega

theorem turn_zero (r : Fin 4) : turn r 0 = r := Fin.ext (Nat.mod_eq_of_lt r.isLt)

theorem xor_xor_self (s k : Block) : xor (xor s k) k = s := by
  funext i
  rw [xor,xor,BitVec.xor_assoc,BitVec.xor_self,BitVec.xor_zero]

theorem invSubBytes_subBytes (s : Block) : invSubBytes (subBytes s) = s :=
  funext fun i => invSubByte_subByte (s i)

theorem subBytes_shiftRows (s : Block) : subBytes (shiftRows s) = shiftRows (subBytes s) := rfl

theorem invShiftRows_shiftRows (s : Block) : invShiftRows (shiftRows s) = s := by
  refine Eq.trans ?_ (ofCells_cell s)
  unfold invShiftRows
  congr 1
  funext r c
  have hr := r.isLt
  have hsum : 4 - r.val + r.val = 0 + 4 := by omega
  rw [shiftRows,cell_ofCells,turn_turn,hsum,turn_four,turn_zero]

theorem invMixColumns_xor (s k : Block) :
    invMixColumns (xor s k) = xor (invMixColumns s) (invMixColumns k) := by
  funext i
  simp only [invMixColumns,ofCells,cell,xor,mul_xor]
  ac_rfl

theorem mix_coeff (b : Byte) :
    mul 0x0E (mul 2 b) ^^^ mul 0x0B b ^^^ mul 0x0D b ^^^ mul 9 (mul 3 b) = b ∧
    mul 0x0E (mul 3 b) ^^^ mul 0x0B (mul 2 b) ^^^ mul 0x0D b ^^^ mul 9 b = 0 ∧
    mul 0x0E b ^^^ mul 0x0B (mul 3 b) ^^^ mul 0x0D (mul 2 b) ^^^ mul 9 b = 0 ∧
    mul 0x0E b ^^^ mul 0x0B b ^^^ mul 0x0D (mul 3 b) ^^^ mul 9 (mul 2 b) = 0 := by
  simp only [mul_2,mul_3,mul_9,mul_B,mul_D,mul_E,xtime_xor]
  generalize xtime (xtime (xtime (xtime b))) = b4
  generalize xtime (xtime (xtime b)) = b3
  generalize xtime (xtime b) = b2
  generalize xtime b = b1
  refine ⟨?_,?_,?_,?_⟩
  all_goals
    apply BitVec.eq_of_getLsbD_eq
    intro i _
    have hz : (0 : Byte).getLsbD i = false := BitVec.getLsbD_zero
    simp only [BitVec.getLsbD_xor,hz]
    cases b4.getLsbD i <;> cases b3.getLsbD i <;> cases b2.getLsbD i <;> cases b1.getLsbD i <;>
      cases b.getLsbD i <;> rfl

theorem invMixColumns_mixColumns (s : Block) : invMixColumns (mixColumns s) = s := by
  refine Eq.trans ?_ (ofCells_cell s)
  unfold invMixColumns
  congr 1
  funext r c
  have h4 : turn r 4 = r := (turn_four r 0).trans (turn_zero r)
  have h5 : turn r 5 = turn r 1 := turn_four r 1
  have h6 : turn r 6 = turn r 2 := turn_four r 2
  simp only [mixColumns,cell_ofCells,turn_turn,mul_xor,Nat.reduceAdd,h4,h5,h6]
  generalize cell s r c = s0,cell s (turn r 1) c = s1,cell s (turn r 2) c = s2,
    cell s (turn r 3) c = s3
  refine Eq.trans (b := (mul 0x0E (mul 2 s0) ^^^ mul 0x0B s0 ^^^ mul 0x0D s0 ^^^ mul 9 (mul 3 s0))
    ^^^ (mul 0x0E (mul 3 s1) ^^^ mul 0x0B (mul 2 s1) ^^^ mul 0x0D s1 ^^^ mul 9 s1)
    ^^^ (mul 0x0E s2 ^^^ mul 0x0B (mul 3 s2) ^^^ mul 0x0D (mul 2 s2) ^^^ mul 9 s2)
    ^^^ (mul 0x0E s3 ^^^ mul 0x0B s3 ^^^ mul 0x0D (mul 3 s3) ^^^ mul 9 (mul 2 s3))) ?_ ?_
  · ac_rfl
  · rw [(mix_coeff s0).1,(mix_coeff s1).2.1,(mix_coeff s2).2.2.1,(mix_coeff s3).2.2.2]
    simp

end State

section Cipher

def subWord (w : Col) : Col := fun r => subByte (w r)
def rotWord (w : Col) : Col := fun r => w (turn r 1)

/-- [x^(n-1),0,0,0] -/
def rcon (n : Nat) : Col := fun r => if r.val = 0 then xtime^[n - 1] 1 else 0

/-- The turn of KeyExpansion that writes w[i]. -/
def expandWord (w : Nat → Col) (i : Nat) : Nat → Col :=
  let temp := if i % 4 = 0 then fun r => subWord (rotWord (w (i - 1))) r ^^^ rcon (i / 4) r
    else w (i - 1)
  Function.update w i fun r => w (i - 4) r ^^^ temp r

def keyExpansion (key : Block) : Nat → Col :=
  (List.range' 4 40).foldl expandWord fun i r => if h : i < 4 then cell key r ⟨i,h⟩ else 0

def roundKey (w : Nat → Col) (n : Nat) : Block := ofCells fun r c => w (4 * n + c.val) r

def round (w : Nat → Col) (s : Block) (n : Nat) : Block :=
  xor (mixColumns (shiftRows (subBytes s))) (roundKey w n)

def cipher (key input : Block) : Block :=
  let w := keyExpansion key
  let s := (List.range' 1 9).foldl (round w) (xor input (roundKey w 0))
  xor (shiftRows (subBytes s)) (roundKey w 10)

end Cipher

section Instructions

def aese (d k : Block) : Block := subBytes (shiftRows (xor d k))
def aesd (d k : Block) : Block := invSubBytes (invShiftRows (xor d k))
def aesmc (d : Block) : Block := mixColumns d
def aesimc (d : Block) : Block := invMixColumns d

/-- AESD with its key on top undoes AESE, up to the key of the latter. -/
theorem aesd_aese (d k k' : Block) : aesd (xor (aese d k) k') k' = xor d k := by
  rw [aesd,xor_xor_self,aese,subBytes_shiftRows,invShiftRows_shiftRows,invSubBytes_subBytes]

theorem aesimc_aesmc_xor (d k : Block) : aesimc (xor (aesmc d) k) = xor d (aesimc k) := by
  rw [aesimc,invMixColumns_xor,aesmc,invMixColumns_mixColumns]
  rfl

variable (ks ks' : Nat → Block)

def encRounds (n : Nat) (d : Block) : Block :=
  (List.range n).foldl (fun d i => aesmc (aese d (ks i))) d

def decRounds (n : Nat) (d : Block) : Block :=
  (List.range n).foldl (fun d i => aesimc (aesd d (ks i))) d

def encrypt (n : Nat) (d : Block) : Block :=
  xor (aese (encRounds ks n d) (ks n)) (ks (n + 1))

def decrypt (n : Nat) (d : Block) : Block :=
  xor (aesd (decRounds ks n d) (ks n)) (ks (n + 1))

theorem encRounds_zero (d : Block) : encRounds ks 0 d = d := rfl

theorem encRounds_succ (n : Nat) (d : Block) :
    encRounds ks (n + 1) d = aesmc (aese (encRounds ks n d) (ks n)) := by
  rw [encRounds,List.range_succ,List.foldl_append]
  rfl

theorem decRounds_succ (n : Nat) (d : Block) :
    decRounds ks (n + 1) d = aesimc (aesd (decRounds ks n d) (ks n)) := by
  rw [decRounds,List.range_succ,List.foldl_append]
  rfl

theorem encrypt_congr {ks ks' : Nat → Block} {n : Nat} (h : ∀ i, i < n + 2 → ks i = ks' i)
    (d : Block) : encrypt ks n d = encrypt ks' n d := by
  have hrounds : ∀ m, m ≤ n → encRounds ks m d = encRounds ks' m d := by
    intro m hm
    induction m with
    | zero => rw [encRounds_zero,encRounds_zero]
    | succ m ih => rw [encRounds_succ,encRounds_succ,ih (by omega),h m (by omega)]
  rw [encrypt,encrypt,hrounds n (Nat.le_refl n),h n (by omega),h (n + 1) (by omega)]

/-- The keys of the equivalent inverse cipher. -/
structure InverseKeys (n : Nat) : Prop where
  first : ks' 0 = ks (n + 1)
  mid : ∀ i, 1 ≤ i → i ≤ n → ks' i = aesimc (ks (n + 1 - i))
  last : ks' (n + 1) = ks 0

variable {ks ks'}

/-- After `i` rounds the state is that of the encryption before its last `i` rounds, under
the round key that comes next. -/
theorem decRounds_encrypt {n : Nat} (h : InverseKeys ks ks' n) (d : Block) {i : Nat}
    (hi : i ≤ n) : decRounds ks' i (encrypt ks n d) =
      xor (aese (encRounds ks (n - i) d) (ks (n - i))) (ks' i) := by
  induction i with
  | zero => rw [h.first]; rfl
  | succ i ih =>
    have hn : n - i = n - (i + 1) + 1 := by omega
    have hkey : n + 1 - (i + 1) = n - (i + 1) + 1 := by omega
    rw [decRounds_succ,ih (by omega),aesd_aese,hn,encRounds_succ,aesimc_aesmc_xor,
      h.mid (i + 1) (by omega) hi,hkey]

theorem decrypt_encrypt {n : Nat} (h : InverseKeys ks ks' n) (d : Block) :
    decrypt ks' n (encrypt ks n d) = d := by
  rw [decrypt,decRounds_encrypt h d (Nat.le_refl n),aesd_aese,Nat.sub_self,h.last]
  exact xor_xor_self d (ks 0)

instance : Finite Byte := Finite.of_injective BitVec.toFin fun _ _ => BitVec.eq_of_toFin_eq

/-- Encryption is a permutation of the blocks, which are finitely many. -/
theorem encrypt_decrypt {n : Nat} (h : InverseKeys ks ks' n) (d : Block) :
    encrypt ks n (decrypt ks' n d) = d := by
  have hinj : Function.Injective (encrypt ks n) :=
    Function.LeftInverse.injective (decrypt_encrypt h)
  obtain ⟨d',rfl⟩ := Finite.surjective_of_injective hinj d
  rw [decrypt_encrypt h]

/-- AESE adds its key before the other steps of a round: what it leaves to do is the
addition of the next key. -/
theorem xor_encRounds (w : Nat → Col) (d : Block) (n : Nat) :
    xor (encRounds (roundKey w) n d) (roundKey w n) =
      (List.range' 1 n).foldl (round w) (xor d (roundKey w 0)) := by
  induction n with
  | zero => rfl
  | succ n ih =>
    rw [List.range'_concat,List.foldl_append,← ih,encRounds_succ,Nat.one_mul,Nat.add_comm 1 n]
    rfl

theorem encrypt_eq_cipher (key d : Block) :
    encrypt (roundKey (keyExpansion key)) 9 d = cipher key d := by
  rw [encrypt,aese,xor_encRounds,subBytes_shiftRows]
  rfl

end Instructions

section Evaluation

/-- The same block, each byte of which is evaluated once however often it is read. -/
def shared (d : Block) : Block := fun i =>
  [d 0,d 1,d 2,d 3,d 4,d 5,d 6,d 7,d 8,d 9,d 10,d 11,d 12,d 13,d 14,d 15].getD i.val 0

theorem shared_eq (d : Block) : shared d = d := by
  funext i
  fin_cases i <;> rfl

def aesdNat (d k : Block) : Block := fun i =>
  BitVec.ofNat 8 (invNat (invAffine (invShiftRows (xor d k) i)).toNat)

theorem aesdNat_eq (d k : Block) : aesdNat d k = aesd d k := funext fun _ => (inv_eq _).symm

theorem decRounds_shared (ks : Nat → Block) (n : Nat) (d : Block) : decRounds ks n d =
    (List.range n).foldl (fun d i => shared (aesimc (shared (aesdNat d (ks i))))) d := by
  simp only [shared_eq,aesdNat_eq]
  rfl

end Evaluation

end Aes

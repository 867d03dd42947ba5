import Arm64Baremetal.Aes
import Arm64Baremetal.SeeService

/-!
see_crypto.c: the key schedule on little-endian words, and wrapping and unwrapping of a
64-bit key with the AES instructions.
-/

set_option autoImplicit false

namespace Arm64
open Aes (Byte Block Col aese aesd aesmc aesimc)

def sboxTable : List Byte := [
    0x63,0x7C,0x77,0x7B,0xF2,0x6B,0x6F,0xC5,0x30,0x01,0x67,0x2B,0xFE,0xD7,0xAB,0x76,
    0xCA,0x82,0xC9,0x7D,0xFA,0x59,0x47,0xF0,0xAD,0xD4,0xA2,0xAF,0x9C,0xA4,0x72,0xC0,
    0xB7,0xFD,0x93,0x26,0x36,0x3F,0xF7,0xCC,0x34,0xA5,0xE5,0xF1,0x71,0xD8,0x31,0x15,
    0x04,0xC7,0x23,0xC3,0x18,0x96,0x05,0x9A,0x07,0x12,0x80,0xE2,0xEB,0x27,0xB2,0x75,
    0x09,0x83,0x2C,0x1A,0x1B,0x6E,0x5A,0xA0,0x52,0x3B,0xD6,0xB3,0x29,0xE3,0x2F,0x84,
    0x53,0xD1,0x00,0xED,0x20,0xFC,0xB1,0x5B,0x6A,0xCB,0xBE,0x39,0x4A,0x4C,0x58,0xCF,
    0xD0,0xEF,0xAA,0xFB,0x43,0x4D,0x33,0x85,0x45,0xF9,0x02,0x7F,0x50,0x3C,0x9F,0xA8,
    0x51,0xA3,0x40,0x8F,0x92,0x9D,0x38,0xF5,0xBC,0xB6,0xDA,0x21,0x10,0xFF,0xF3,0xD2,
    0xCD,0x0C,0x13,0xEC,0x5F,0x97,0x44,0x17,0xC4,0xA7,0x7E,0x3D,0x64,0x5D,0x19,0x73,
    0x60,0x81,0x4F,0xDC,0x22,0x2A,0x90,0x88,0x46,0xEE,0xB8,0x14,0xDE,0x5E,0x0B,0xDB,
    0xE0,0x32,0x3A,0x0A,0x49,0x06,0x24,0x5C,0xC2,0xD3,0xAC,0x62,0x91,0x95,0xE4,0x79,
    0xE7,0xC8,0x37,0x6D,0x8D,0xD5,0x4E,0xA9,0x6C,0x56,0xF4,0xEA,0x65,0x7A,0xAE,0x08,
    0xBA,0x78,0x25,0x2E,0x1C,0xA6,0xB4,0xC6,0xE8,0xDD,0x74,0x1F,0x4B,0xBD,0x8B,0x8A,
    0x70,0x3E,0xB5,0x66,0x48,0x03,0xF6,0x0E,0x61,0x35,0x57,0xB9,0x86,0xC1,0x1D,0x9E,
    0xE1,0xF8,0x98,0x11,0x69,0xD9,0x8E,0x94,0x9B,0x1E,0x87,0xE9,0xCE,0x55,0x28,0xDF,
    0x8C,0xA1,0x89,0x0D,0xBF,0xE6,0x42,0x68,0x41,0x99,0x2D,0x0F,0xB0,0x54,0xBB,0x16]

def rconTable : List Byte := [0x01,0x02,0x04,0x08,0x10,0x20,0x40,0x80,0x1B,0x36]

def sbox (i : BitVec 32) : BitVec 32 := (sboxTable.getD i.toNat 0).setWidth 32

def rotWord (w : BitVec 32) : BitVec 32 := w >>> 8 ||| w <<< 24

def subWord (w : BitVec 32) : BitVec 32 :=
  sbox (w &&& 0xFF) ||| sbox (w >>> 8 &&& 0xFF) <<< 8 ||| sbox (w >>> 16 &&& 0xFF) <<< 16 |||
    sbox (w >>> 24 &&& 0xFF) <<< 24

def wordByte (w : BitVec 32) (r : Fin 4) : Byte := w.extractLsb' (8 * r.val) 8

theorem mod_sixteen_lt (n : Nat) : n % 16 < 16 := Nat.mod_lt n (by decide)

def byteAt (d : Block) (i : Nat) : Byte := d ⟨i % 16,mod_sixteen_lt i⟩

/-- `mem_copy(round_keys, key, 16)` -/
def copyKey (key : Block) (roundKeys : Nat → BitVec 32) (i : Nat) : BitVec 32 :=
  if i < 4 then
    byteAt key (4 * i + 3) ++ byteAt key (4 * i + 2) ++ byteAt key (4 * i + 1) ++ byteAt key (4 * i)
  else roundKeys i

/-- One turn of the loop in aes128_expand_key. -/
def expandTurn (roundKeys : Nat → BitVec 32) (i : Nat) : Nat → BitVec 32 :=
  let temp := roundKeys (i - 1)
  let temp := if i % 4 = 0 then
      subWord (rotWord temp) ^^^ (rconTable.getD (i / 4 - 1) 0).setWidth 32
    else temp
  Function.update roundKeys i (roundKeys (i - 4) ^^^ temp)

/-- `round_keys` is not initialized. -/
def aes128ExpandKey (key : Block) (roundKeys : Nat → BitVec 32) : Nat → BitVec 32 :=
  (List.range' 4 40).foldl expandTurn (copyKey key roundKeys)

/-- encryption_keys and decryption_keys, of which 11 are in use. -/
structure Keys where
  encryptionKeys : Nat → Block
  decryptionKeys : Nat → Block

/-- `vld1q_u8((uint8_t *)&raw_keys[i * 4])` -/
def loadKey (rawKeys : Nat → BitVec 32) (i : Nat) : Block :=
  Aes.ofCells fun r c => wordByte (rawKeys (i * 4 + c.val)) r

def seeInitCrypto (masterKey : Block) (rawKeys : Nat → BitVec 32) : Keys :=
  let rawKeys := aes128ExpandKey masterKey rawKeys
  let encryptionKeys := loadKey rawKeys
  { encryptionKeys
    decryptionKeys := fun i =>
      if i = 0 then encryptionKeys 10
      else if i = 10 then encryptionKeys 0
      else aesimc (encryptionKeys (10 - i)) }

/-- `vld1q_u8` of two 64-bit words -/
def loadBlock (p : Word × Word) : Block := fun i =>
  if i.val < 8 then p.1.extractLsb' (8 * i.val) 8 else p.2.extractLsb' (8 * (i.val - 8)) 8

/-- The 64-bit lane of a vector, from its first byte on. -/
def lane (d : Block) (i : Nat) : Word :=
  byteAt d (i + 7) ++ byteAt d (i + 6) ++ byteAt d (i + 5) ++ byteAt d (i + 4) ++
    byteAt d (i + 3) ++ byteAt d (i + 2) ++ byteAt d (i + 1) ++ byteAt d i

/-- `vst1q_u8` to two 64-bit words -/
def storeBlock (d : Block) : Word × Word := (lane d 0,lane d 8)

def seeWrapKey (keys : Keys) (plainKey : Word) : Word × Word :=
  let data := loadBlock (plainKey,0xFAEFA0A0A053FE00)
  let data := (List.range 9).foldl (fun data i => aesmc (aese data (keys.encryptionKeys i))) data
  let data := aese data (keys.encryptionKeys 9)
  storeBlock (Aes.xor data (keys.encryptionKeys 10))

def seeUnwrapKey (keys : Keys) (wrappedKey : Word × Word) : Word :=
  let data := loadBlock wrappedKey
  let data := (List.range 9).foldl (fun data i => aesimc (aesd data (keys.decryptionKeys i))) data
  let data := aesd data (keys.decryptionKeys 9)
  lane (Aes.xor data (keys.decryptionKeys 10)) 0

section Bytes

theorem extract_append_low {n : Nat} (w : BitVec n) (b : Byte) :
    (w ++ b).extractLsb' 0 8 = b := by
  apply BitVec.eq_of_getLsbD_eq
  intro i hi
  simp [BitVec.getLsbD_append,hi]

theorem extract_append_high {n k : Nat} (w : BitVec n) (b : Byte) (hk : 8 ≤ k) :
    (w ++ b).extractLsb' k 8 = w.extractLsb' (k - 8) 8 := by
  apply BitVec.eq_of_getLsbD_eq
  intro i hi
  simp only [BitVec.getLsbD_extractLsb',BitVec.getLsbD_append]
  have hge : ¬ k + i < 8 := by omega
  have hsub : k + i - 8 = k - 8 + i := by omega
  rw [if_neg hge,hsub]

theorem wordByte_append (b3 b2 b1 b0 : Byte) (r : Fin 4) :
    wordByte (b3 ++ b2 ++ b1 ++ b0) r =
      if r.val = 0 then b0 else if r.val = 1 then b1 else if r.val = 2 then b2 else b3 := by
  obtain ⟨r,hr⟩ := r
  have hcases : r = 0 ∨ r = 1 ∨ r = 2 ∨ r = 3 := by omega
  unfold wordByte
  rcases hcases with rfl | rfl | rfl | rfl
  all_goals simp (disch := omega) [extract_append_low,extract_append_high]

theorem lane_extract (d : Block) (n : Nat) {k : Nat} (hk : k < 8) :
    (lane d n).extractLsb' (8 * k) 8 = byteAt d (n + k) := by
  have hcases : k = 0 ∨ k = 1 ∨ k = 2 ∨ k = 3 ∨ k = 4 ∨ k = 5 ∨ k = 6 ∨ k = 7 := by omega
  unfold lane
  rcases hcases with rfl | rfl | rfl | rfl | rfl | rfl | rfl | rfl
  all_goals simp (disch := omega) [extract_append_low,extract_append_high]

theorem eq_of_bytes {w w' : Word}
    (h : ∀ k, k < 8 → w.extractLsb' (8 * k) 8 = w'.extractLsb' (8 * k) 8) : w = w' := by
  apply BitVec.eq_of_getLsbD_eq
  intro i hi
  have hbit := congrArg (·.getLsbD (i % 8)) (h (i / 8) (by omega))
  have hlt : i % 8 < 8 := by omega
  simpa [BitVec.getLsbD_extractLsb',hlt,Nat.div_add_mod] using hbit

theorem lane_loadBlock (p : Word × Word) : lane (loadBlock p) 0 = p.1 := by
  refine eq_of_bytes fun k hk => ?_
  have hmod : (0 + k) % 16 = k := by omega
  rw [lane_extract _ _ hk,byteAt]
  simp only [loadBlock,hmod,if_pos hk]

theorem lane_loadBlock_high (p : Word × Word) : lane (loadBlock p) 8 = p.2 := by
  refine eq_of_bytes fun k hk => ?_
  have hmod : (8 + k) % 16 = 8 + k := by omega
  have hlt : ¬ 8 + k < 8 := by omega
  rw [lane_extract _ _ hk,byteAt]
  simp only [loadBlock,hmod,if_neg hlt,Nat.add_sub_cancel_left]

theorem storeBlock_loadBlock (p : Word × Word) : storeBlock (loadBlock p) = p :=
  Prod.ext (lane_loadBlock p) (lane_loadBlock_high p)

theorem loadBlock_storeBlock (d : Block) : loadBlock (storeBlock d) = d := by
  funext i
  have hi := i.isLt
  simp only [loadBlock,storeBlock]
  split
  · rename_i h8
    rw [lane_extract _ _ h8,byteAt]
    congr 1
    exact Fin.ext (by dsimp only; omega)
  · rw [lane_extract _ _ (by omega),byteAt]
    congr 1
    exact Fin.ext (by dsimp only; omega)

end Bytes

section KeySchedule

theorem sboxTable_eq (b : Byte) : sboxTable.getD b.toNat 0 = Aes.subByte b := by
  have h : ∀ b : Byte, sboxTable.getD b.toNat 0 =
      Aes.affine (BitVec.ofNat 8 (Aes.invNat b.toNat)) := Aes.forall_byte (by decide +kernel)
  rw [h,Aes.subByte,Aes.inv_eq]

theorem sbox_byte (w : BitVec 32) (k : Nat) :
    sbox (w >>> k &&& 0xFF) = (Aes.subByte (w.extractLsb' k 8)).setWidth 32 := by
  have hidx : (w >>> k &&& 0xFF).toNat = (w.extractLsb' k 8).toNat := by
    rw [BitVec.extractLsb'_toNat,BitVec.toNat_and,BitVec.toNat_ushiftRight]
    exact Nat.and_two_pow_sub_one_eq_mod _ 8
  rw [sbox,hidx,sboxTable_eq]

theorem or_shifts (b3 b2 b1 b0 : Byte) :
    b0.setWidth 32 ||| b1.setWidth 32 <<< 8 ||| b2.setWidth 32 <<< 16 ||| b3.setWidth 32 <<< 24 =
      b3 ++ b2 ++ b1 ++ b0 := by
  apply BitVec.eq_of_getLsbD_eq
  intro i hi
  simp only [BitVec.getLsbD_or,BitVec.getLsbD_shiftLeft,BitVec.getLsbD_setWidth,
    BitVec.getLsbD_append]
  have hcases : i < 8 ∨ 8 ≤ i ∧ i < 16 ∨ 16 ≤ i ∧ i < 24 ∨ 24 ≤ i := by omega
  have h0 := b0.getLsbD_of_ge i
  have h1 := b1.getLsbD_of_ge (i - 8)
  have h2 := b2.getLsbD_of_ge (i - 16)
  rcases hcases with h | h | h | h
  all_goals grind

theorem wordByte_subWord (w : BitVec 32) (r : Fin 4) :
    wordByte (subWord w) r = Aes.subByte (wordByte w r) := by
  have h0 := sbox_byte w 0
  rw [BitVec.ushiftRight_zero] at h0
  rw [subWord,h0,sbox_byte,sbox_byte,sbox_byte,or_shifts,wordByte_append,wordByte]
  obtain ⟨r,hr⟩ := r
  have hcases : r = 0 ∨ r = 1 ∨ r = 2 ∨ r = 3 := by omega
  rcases hcases with rfl | rfl | rfl | rfl <;> rfl

theorem wordByte_rotWord (w : BitVec 32) (r : Fin 4) :
    wordByte (rotWord w) r = wordByte w (Aes.turn r 1) := by
  apply BitVec.eq_of_getLsbD_eq
  intro i hi
  have hr := r.isLt
  simp only [wordByte,rotWord,Aes.turn,BitVec.getLsbD_extractLsb',BitVec.getLsbD_or,
    BitVec.getLsbD_ushiftRight,BitVec.getLsbD_shiftLeft]
  have hcases : r.val = 3 ∨ r.val < 3 := by omega
  rcases hcases with h | h
  · have hge := w.getLsbD_of_ge (8 + (8 * r.val + i)) (by omega)
    have hmod : (r.val + 1) % 4 = 0 := by omega
    have hsub : 8 * r.val + i - 24 = 8 * 0 + i := by omega
    rw [hge,hmod,hsub]
    grind
  · have hmod : (r.val + 1) % 4 = r.val + 1 := by omega
    have hadd : 8 + (8 * r.val + i) = 8 * (r.val + 1) + i := by omega
    rw [hmod,hadd]
    grind

theorem wordByte_xor (w w' : BitVec 32) (r : Fin 4) :
    wordByte (w ^^^ w') r = wordByte w r ^^^ wordByte w' r := BitVec.extractLsb'_xor

theorem wordByte_setWidth (b : Byte) (r : Fin 4) :
    wordByte (b.setWidth 32) r = if r.val = 0 then b else 0 := by
  apply BitVec.eq_of_getLsbD_eq
  intro i hi
  have hr := r.isLt
  simp only [wordByte,BitVec.getLsbD_extractLsb',BitVec.getLsbD_setWidth]
  by_cases h : r.val = 0
  · rw [h]
    simp [hi]
    omega
  · have hge := b.getLsbD_of_ge (8 * r.val + i) (by omega)
    simp [h,hge]

theorem rconTable_eq : ∀ n, n < 10 → rconTable.getD n 0 = Aes.xtime^[n] 1 := by decide

theorem byteAt_cell (d : Block) (r c : Fin 4) {i : Nat} (hi : i = 4 * c.val + r.val) :
    byteAt d i = Aes.cell d r c := by
  have hr := r.isLt
  have hc := c.isLt
  rw [byteAt,Aes.cell]
  congr 1
  exact Fin.ext (by dsimp only; omega)

theorem wordByte_copyKey (key : Block) (roundKeys : Nat → BitVec 32) {i : Nat} (hi : i < 4)
    (r : Fin 4) : wordByte (copyKey key roundKeys i) r = Aes.cell key r ⟨i,hi⟩ := by
  rw [copyKey,if_pos hi,wordByte_append]
  obtain ⟨r,hr⟩ := r
  have hcases : r = 0 ∨ r = 1 ∨ r = 2 ∨ r = 3 := by omega
  rcases hcases with rfl | rfl | rfl | rfl
  all_goals exact byteAt_cell key _ _ rfl

/-- One turn keeps the words of the two loops equal, from the words before `i` on. -/
theorem expandTurn_eq {w : Nat → BitVec 32} {w' : Nat → Col} {i : Nat} (h4 : 4 ≤ i) (hi : i < 44)
    (h : ∀ j, j < i → ∀ r, wordByte (w j) r = w' j r) :
    ∀ j, j < i + 1 → ∀ r, wordByte (expandTurn w i j) r = Aes.expandWord w' i j r := by
  intro j hj r
  unfold expandTurn Aes.expandWord
  by_cases hji : j = i
  · subst hji
    simp only [Function.update_self,wordByte_xor,h (j - 4) (by omega)]
    by_cases h0 : j % 4 = 0
    · simp only [if_pos h0,wordByte_xor,wordByte_subWord,wordByte_rotWord,h (j - 1) (by omega),
        rconTable_eq (j / 4 - 1) (by omega),wordByte_setWidth]
      rfl
    · simp only [if_neg h0,h (j - 1) (by omega)]
  · simp only [Function.update_of_ne hji]
    exact h j (by omega) r

theorem expandTurns_eq (key : Block) (roundKeys : Nat → BitVec 32) {n : Nat} (hn : n ≤ 40) :
    let w := (List.range' 4 n).foldl expandTurn (copyKey key roundKeys)
    let w' := (List.range' 4 n).foldl Aes.expandWord
      fun i r => if h : i < 4 then Aes.cell key r ⟨i,h⟩ else 0
    ∀ i, i < 4 + n → ∀ r, wordByte (w i) r = w' i r := by
  induction n with
  | zero =>
    intro w w' i hi r
    have hi : i < 4 := hi
    simp only [w,w',List.range'_zero,List.foldl_nil,dif_pos hi]
    exact wordByte_copyKey key roundKeys hi r
  | succ n ih =>
    intro w w' i hi r
    simp only [w,w',List.range'_concat,List.foldl_append,List.foldl_cons,List.foldl_nil,Nat.one_mul]
    exact expandTurn_eq (by omega) (by omega) (ih (by omega)) i hi r

end KeySchedule

theorem seeUnwrapKey_eq (keys : Keys) (p : Word × Word) :
    seeUnwrapKey keys p = lane (Aes.decrypt keys.decryptionKeys 9 (loadBlock p)) 0 := rfl

theorem loadBlock_seeWrapKey (keys : Keys) (plainKey : Word) :
    loadBlock (seeWrapKey keys plainKey) =
      Aes.encrypt keys.encryptionKeys 9 (loadBlock (plainKey,0xFAEFA0A0A053FE00)) :=
  loadBlock_storeBlock _

theorem seeInitCrypto_inverse (masterKey : Block) (rawKeys : Nat → BitVec 32) :
    let keys := seeInitCrypto masterKey rawKeys
    Aes.InverseKeys keys.encryptionKeys keys.decryptionKeys 9 where
  first := rfl
  mid i h1 h9 := by
    have h0 : i ≠ 0 := by omega
    have h10 : i ≠ 10 := by omega
    simp only [seeInitCrypto,if_neg h0,if_neg h10]
  last := rfl

theorem aes128ExpandKey_eq (key : Block) (roundKeys : Nat → BitVec 32) {i : Nat} (hi : i < 44)
    (r : Fin 4) : wordByte (aes128ExpandKey key roundKeys i) r = Aes.keyExpansion key i r :=
  expandTurns_eq key roundKeys (Nat.le_refl 40) i hi r

theorem seeUnwrapKey_seeWrapKey (masterKey : Block) (rawKeys : Nat → BitVec 32)
    (plainKey : Word) : seeUnwrapKey (seeInitCrypto masterKey rawKeys)
      (seeWrapKey (seeInitCrypto masterKey rawKeys) plainKey) = plainKey := by
  rw [seeUnwrapKey_eq,loadBlock_seeWrapKey,
    Aes.decrypt_encrypt (seeInitCrypto_inverse masterKey rawKeys),lane_loadBlock]

/-- Unwrapping undoes wrapping, for every master key. -/
theorem unwrap_wrap (masterKey : Block) (rawKeys : Nat → BitVec 32) (plainKey : Word) :
    let keys := seeInitCrypto masterKey rawKeys
    seeUnwrapKey keys (seeWrapKey keys plainKey) = plainKey :=
  seeUnwrapKey_seeWrapKey masterKey rawKeys plainKey

def seeCrypto (masterKey : Block) (rawKeys : Nat → BitVec 32) : Crypto :=
  let keys := seeInitCrypto masterKey rawKeys
  ⟨seeWrapKey keys,seeUnwrapKey keys⟩

theorem encryptionKeys_eq (masterKey : Block) (rawKeys : Nat → BitVec 32) {n : Nat}
    (hn : n < 11) : (seeInitCrypto masterKey rawKeys).encryptionKeys n =
      Aes.roundKey (Aes.keyExpansion masterKey) n := by
  funext i
  have hc := (Aes.col i).isLt
  simp only [seeInitCrypto,loadKey,Aes.roundKey,Aes.ofCells]
  rw [aes128ExpandKey_eq _ _ (by omega),Nat.mul_comm]

/-- see_wrap_key is AES-128 under the master key. -/
theorem wrap_is_aes128 (masterKey : Block) (rawKeys : Nat → BitVec 32) (plainKey : Word) :
    loadBlock (seeWrapKey (seeInitCrypto masterKey rawKeys) plainKey) =
      Aes.cipher masterKey (loadBlock (plainKey,0xFAEFA0A0A053FE00)) ∧
    ∀ i, i < 44 → ∀ r,
      wordByte (aes128ExpandKey masterKey rawKeys i) r = Aes.keyExpansion masterKey i r := by
  refine ⟨?_,fun i hi r => aes128ExpandKey_eq masterKey rawKeys hi r⟩
  rw [loadBlock_seeWrapKey,← Aes.encrypt_eq_cipher]
  exact Aes.encrypt_congr (fun n hn => encryptionKeys_eq masterKey rawKeys (by omega)) _

end Arm64

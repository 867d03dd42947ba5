import Arm64Baremetal.Numerals
import Arm64Baremetal.StringScan

/-!
kernel_printf and seeos_printf of kernel_uart.c and see_uart.c, which differ in the UART and
its lock only: the scanner of the format and the conversions.
-/

set_option autoImplicit false

namespace Arm64
open StringScan Numerals

def charByte (c : Char) : BitVec 8 := BitVec.ofNat 8 c.toNat

def consoleBytes (s : List Char) : List (BitVec 8) := s.map charByte

/-- A string in memory, from its first byte on. Behind the NUL there may be anything. -/
structure CStr where
  byte : Nat → BitVec 8
  terminated : ∃ k, byte k = 0

namespace CStr

def length (s : CStr) : Nat := Nat.find s.terminated

def text (s : CStr) : List (BitVec 8) := (List.range s.length).map s.byte

def ofBytes (l : List (BitVec 8)) : CStr :=
  ⟨fun i => l.getD i 0,l.length,by simp⟩

def ofString (s : String) : CStr := ofBytes (consoleBytes s.toList)

end CStr

/-- An argument of the type that %s, %x or %d, or %c takes. -/
inductive VaArg where
  | ptr (s : Option CStr)
  | long (val : BitVec 64)
  | int (val : BitVec 32)

def nibbleChar (nibble : BitVec 8) : BitVec 8 :=
  if nibble < 10 then charByte '0' + nibble else charByte 'A' + (nibble - 10)

/-- The loop of %x over the low `n` nibbles. -/
def hexDigits (val : BitVec 64) : Nat → Bool → List (BitVec 8)
  | 0,_ => []
  | n + 1,started =>
    let nibble := ((val >>> (4 * n)) &&& 0xF).setWidth 8
    if nibble ≠ 0 ∨ started then nibbleChar nibble :: hexDigits val n true
    else hexDigits val n false

def printHex (val : BitVec 64) : List (BitVec 8) :=
  charByte '0' :: charByte 'x' :: if val = 0 then [charByte '0'] else hexDigits val 16 false

/-- The first loop of %d, with what buf holds and the number of elements behind it. `none` is a
store behind the last. -/
def storeDigits : Nat → BitVec 64 → List (BitVec 8) → Option (List (BitVec 8))
  | free,val,buf =>
    if 0 < val.toInt then
      match free with
      | 0 => none
      | free + 1 =>
        storeDigits free (val.sdiv 10) (buf ++ [(val.srem 10).setWidth 8 + charByte '0'])
    else some buf

def printDec (val : BitVec 64) : Option (List (BitVec 8)) :=
  if val = 0 then some [charByte '0']
  else if val.toInt < 0 then
    (storeDigits 20 (-val) []).map fun buf => charByte '-' :: buf.reverse
  else (storeDigits 20 val []).map List.reverse

inductive Conv where
  | string | hex | dec | char
  deriving DecidableEq

def Conv.ofByte (b : BitVec 8) : Option Conv :=
  if b = charByte 's' then some .string
  else if b = charByte 'x' then some .hex
  else if b = charByte 'd' then some .dec
  else if b = charByte 'c' then some .char
  else none

/-- `while (*s)` of %s. It ends with the test of the NUL. -/
def putString (s : CStr) : Option (List (BitVec 8)) :=
  match scan (· + 1) some 0 s.byte (s.length + 1) 0 with
  | (cs,.returned) => some cs
  | _ => none

/-- What a specifier puts for an argument. An argument of another type is not defined. -/
def Conv.print : Conv → VaArg → Option (List (BitVec 8))
  | .string,.ptr none => some (consoleBytes "(null)".toList)
  | .string,.ptr (some s) => putString s
  | .hex,.long val => some (printHex val)
  | .dec,.long val => printDec val
  | .char,.int val => some [val.setWidth 8]
  | _,_ => none

structure Console where
  lock : Bool
  out : List (BitVec 8)

def Console.put (con : Console) (cs : List (BitVec 8)) : Console :=
  { con with out := con.out ++ cs }

/-- The call between two tests of the loop: the index of `p`, the arguments left, and the indices
at which the format has been read. -/
structure Printing where
  p : Nat
  args : List VaArg
  reads : List Nat
  con : Console

def printSpec (fmt : CStr) (s : Printing) : Option Printing :=
  let s := { s with reads := s.reads ++ [s.p] }
  match Conv.ofByte (fmt.byte s.p) with
  | none => some { s with con := s.con.put [charByte '%',fmt.byte s.p] }
  | some k =>
    match s.args with
    | [] => none
    | arg :: args =>
      (k.print arg).map fun cs => { s with args := args, con := s.con.put cs }

/-- The loop, in `n` tests. -/
def printLoop (fmt : CStr) : Nat → Printing → Option Printing
  | 0,_ => none
  | n + 1,s =>
    let s := { s with reads := s.reads ++ [s.p] }
    if fmt.byte s.p = 0 then some s
    else if fmt.byte s.p = charByte '%' then
      (printSpec fmt { s with p := s.p + 1 }).bind fun s => printLoop fmt n { s with p := s.p + 1 }
    else printLoop fmt n { s with p := s.p + 1, con := s.con.put [fmt.byte s.p] }

inductive Uart where
  | kernel | see
  deriving DecidableEq

/-- The call takes the lock of its UART when it is free. -/
def printfOn (u : Uart) (fmt : CStr) (args : List VaArg) (n : Nat) (cons : Uart → Console) :
    Option (Printing × (Uart → Console)) :=
  if (cons u).lock then none
  else
    (printLoop fmt n ⟨0,args,[],{ cons u with lock := true }⟩).map fun s =>
      (s,Function.update cons u { s.con with lock := false })

def freeConsoles : Uart → Console := fun _ => ⟨false,[]⟩

def kernelPrintf := printfOn .kernel
def seeosPrintf := printfOn .see

def decDigit (c : BitVec 8) : Option Nat :=
  if charByte '0' ≤ c ∧ c ≤ charByte '9' then some (c - charByte '0').toNat else none

/-- Hexadecimal digits are in upper case. -/
def hexDigit (c : BitVec 8) : Option Nat :=
  if charByte 'A' ≤ c ∧ c ≤ charByte 'F' then some (c - charByte 'A' + 10).toNat else decDigit c

def readDec (cs : List (BitVec 8)) : Option Int := readInt decDigit 10 (charByte '-') cs

def readHex : List (BitVec 8) → Option Nat
  | c :: c' :: cs => if c = charByte '0' ∧ c' = charByte 'x' then readNat hexDigit 16 cs else none
  | _ => none

section Numbers

def decChar (d : Nat) : BitVec 8 := BitVec.ofNat 8 d + charByte '0'

theorem decDigit_decChar : ∀ d < 10, decDigit (decChar d) = some d := by decide

theorem hexDigit_nibbleChar : ∀ d < 16, hexDigit (nibbleChar (BitVec.ofNat 8 d)) = some d := by
  decide

theorem toInt_pos_iff (v : BitVec 64) : 0 < v.toInt ↔ v.toNat ≠ 0 ∧ v.toNat < 2 ^ 63 := by
  rw [BitVec.toInt_eq_toNat_cond]
  have := v.isLt
  split <;> omega

theorem sdiv_srem_ten {v : BitVec 64} (hv : v.toNat < 2 ^ 63) :
    (v.sdiv 10).toNat = v.toNat / 10 ∧
      (v.srem 10).setWidth 8 + charByte '0' = decChar (v.toNat % 10) := by
  have hmsb : v.msb = false := by
    rw [BitVec.msb_eq_decide,decide_eq_false_iff_not]
    omega
  have hten : (10 : BitVec 64).msb = false := by decide
  simp only [BitVec.sdiv_eq,BitVec.srem_eq,hmsb,hten]
  refine ⟨BitVec.toNat_udiv,congrArg (· + charByte '0') (BitVec.eq_of_toNat_eq ?_)⟩
  rw [BitVec.toNat_setWidth,BitVec.toNat_umod,BitVec.toNat_ofNat]
  rfl

theorem storeDigits_zero {v : BitVec 64} (hzero : v.toNat = 0) (free : Nat)
    (buf : List (BitVec 8)) : storeDigits free v buf = some buf := by
  have hstop : ¬ 0 < v.toInt := fun h => ((toInt_pos_iff v).mp h).1 hzero
  cases free with
  | zero => rw [storeDigits,if_neg hstop]
  | succ free => rw [storeDigits,if_neg hstop]

theorem storeDigits_eq {free : Nat} {v : BitVec 64} (hv : v.toNat < 2 ^ 63)
    (hfree : v.toNat < 10 ^ free) (buf : List (BitVec 8)) :
    storeDigits free v buf = some (buf ++ (Nat.digits 10 v.toNat).map decChar) := by
  induction free generalizing v buf with
  | zero =>
    have hzero : v.toNat = 0 := Nat.lt_one_iff.mp hfree
    rw [storeDigits_zero hzero,hzero,Nat.digits_zero,List.map_nil,List.append_nil]
  | succ free ih =>
    by_cases hzero : v.toNat = 0
    · rw [storeDigits_zero hzero,hzero,Nat.digits_zero,List.map_nil,List.append_nil]
    · have hgo : 0 < v.toInt := (toInt_pos_iff v).mpr ⟨hzero,hv⟩
      obtain ⟨hdiv,hrem⟩ := sdiv_srem_ten hv
      rw [storeDigits,if_pos hgo,ih (by rw [hdiv]; omega) (by rw [hdiv]; omega),hdiv,hrem,
        Nat.digits_def' (by decide) (Nat.pos_of_ne_zero hzero),List.append_assoc]
      rfl

theorem storeDigits_all {v : BitVec 64} (hv : v.toNat < 2 ^ 63) :
    storeDigits 20 v [] = some ((Nat.digits 10 v.toNat).map decChar) :=
  storeDigits_eq hv (hv.trans (by decide)) []

theorem readNat_decChar {n : Nat} (hn : n ≠ 0) :
    readNat decDigit 10 ((Nat.digits 10 n).reverse.map decChar) = some n :=
  readNat_digits (by decide) decDigit_decChar hn

theorem neg_toNat {v : BitVec 64} (h : v.toInt < 0) :
    (-v).toNat = (-v.toInt).toNat ∧ (-v).toNat ≠ 0 := by
  rw [BitVec.toNat_neg]
  rw [BitVec.toInt_eq_toNat_cond] at h ⊢
  have := v.isLt
  split at h <;> omega

theorem printDec_reads {v : BitVec 64} (hmin : v.toInt ≠ -2 ^ 63) :
    ∃ cs, printDec v = some cs ∧ readDec cs = some v.toInt := by
  have hlt := v.isLt
  have hcond := BitVec.toInt_eq_toNat_cond (x := v)
  by_cases hzero : v = 0
  · subst hzero
    exact ⟨[charByte '0'],rfl,rfl⟩
  · rw [printDec,if_neg hzero]
    by_cases hneg : v.toInt < 0
    · obtain ⟨habs,hne⟩ := neg_toNat hneg
      have hval : v.toInt = -((-v).toNat : Int) := by omega
      rw [if_pos hneg,storeDigits_all (by omega),Option.map_some,← List.map_reverse]
      exact ⟨_,rfl,hval ▸ readInt_minus (readNat_decChar hne)⟩
    · have hval : v.toInt = v.toNat := by omega
      have hne : v.toNat ≠ 0 := fun h => hzero (BitVec.eq_of_toNat_eq h)
      rw [if_neg hneg,storeDigits_all (by omega),Option.map_some,← List.map_reverse]
      exact ⟨_,rfl,hval ▸ readInt_nat (by decide) (readNat_decChar hne)⟩

/-- The number without a positive counterpart: `-val` is negative as well. -/
theorem printDec_min {v : BitVec 64} (hmin : v.toInt = -2 ^ 63) :
    printDec v = some [charByte '-'] := by
  obtain rfl : v = BitVec.intMin 64 := BitVec.eq_of_toInt_eq hmin
  rfl

theorem nibble_eq (v : BitVec 64) (n : Nat) :
    ((v >>> (4 * n)) &&& 0xF).setWidth 8 = BitVec.ofNat 8 (v.toNat / 16 ^ n % 16) := by
  apply BitVec.eq_of_toNat_eq
  have hmask : (0xF : BitVec 64).toNat = 2 ^ 4 - 1 := rfl
  rw [BitVec.toNat_setWidth,BitVec.toNat_and,BitVec.toNat_ushiftRight,hmask,
    Nat.and_two_pow_sub_one_eq_mod,Nat.shiftRight_eq_div_pow,Nat.pow_mul,BitVec.toNat_ofNat]

theorem hexDigits_reads (v : BitVec 64) (n k : Nat) :
    readDigits hexDigit 16 k (hexDigits v n true) = some (k * 16 ^ n + v.toNat % 16 ^ n) := by
  induction n generalizing k with
  | zero => simp [hexDigits,readDigits,Nat.mod_one]
  | succ n ih =>
    rw [hexDigits,if_pos (Or.inr rfl),nibble_eq,
      readDigits_cons (hexDigit_nibbleChar _ (Nat.mod_lt _ (by decide))),ih,Nat.mod_pow_succ]
    exact congrArg some (by ring)

theorem hexDigits_lead {v : BitVec 64} {n : Nat} (h : v.toNat % 16 ^ n ≠ 0) :
    readNat hexDigit 16 (hexDigits v n false) = some (v.toNat % 16 ^ n) := by
  induction n with
  | zero => exact absurd (Nat.mod_one _) h
  | succ n ih =>
    have hd : v.toNat / 16 ^ n % 16 < 16 := Nat.mod_lt _ (by decide)
    rw [hexDigits,nibble_eq]
    by_cases hnibble : v.toNat / 16 ^ n % 16 = 0
    · rw [hnibble,if_neg (by decide)]
      rw [Nat.mod_pow_succ,hnibble,Nat.mul_zero,Nat.add_zero] at h ⊢
      exact ih h
    · have hfirst : BitVec.ofNat 8 (v.toNat / 16 ^ n % 16) ≠ 0 := by
        intro hzero
        have hval := congrArg BitVec.toNat hzero
        rw [BitVec.toNat_ofNat,Nat.mod_eq_of_lt (hd.trans (by decide))] at hval
        exact hnibble hval
      rw [if_pos (Or.inl hfirst)]
      refine readNat_cons (hexDigit_nibbleChar _ hd) hnibble ?_
      rw [hexDigits_reads,Nat.mod_pow_succ]
      exact congrArg some (by ring)

theorem printHex_reads (v : BitVec 64) : readHex (printHex v) = some v.toNat := by
  rw [printHex,readHex,if_pos ⟨rfl,rfl⟩]
  by_cases hzero : v = 0
  · subst hzero
    rfl
  · have hmod : v.toNat % 16 ^ 16 = v.toNat := Nat.mod_eq_of_lt v.isLt
    have hne : v.toNat ≠ 0 := fun h => hzero (BitVec.eq_of_toNat_eq h)
    rw [if_neg hzero,hexDigits_lead (by rwa [hmod]),hmod]

/-- What %d and %x print reads back, but for one number: of the most negative one only the
sign is printed. -/
theorem numbers_read_back (v w : BitVec 64) :
    (∃ cs, printDec v = some cs ∧ readDec cs = some v.toInt) ∧
      readHex (printHex w) = some w.toNat ↔ v.toInt ≠ -2 ^ 63 := by
  constructor
  · rintro ⟨⟨cs,hprint,hread⟩,-⟩ hmin
    rw [printDec_min hmin] at hprint
    obtain rfl := Option.some.inj hprint
    cases hread
  · exact fun hmin => ⟨printDec_reads hmin,printHex_reads w⟩

theorem min_not_read_back :
    ¬ ∃ cs, printDec (BitVec.intMin 64) = some cs ∧
      readDec cs = some (BitVec.intMin 64).toInt := by
  rintro ⟨cs,hprint,hread⟩
  rw [printDec_min (by decide)] at hprint
  obtain rfl := Option.some.inj hprint
  cases hread

end Numbers

inductive Piece where
  | text (cs : List (BitVec 8))
  | conv (k : Conv)
  deriving DecidableEq

def pieces : List (BitVec 8) → List Piece
  | [] => []
  | [c] => [.text [c]]
  | c :: c' :: cs =>
    if c = charByte '%' then
      (match Conv.ofByte c' with
        | some k => .conv k
        | none => .text [c,c']) :: pieces cs
    else .text [c] :: pieces (c' :: cs)

/-- The last character is a percent sign that starts a specifier. -/
def EndsInPercent : List (BitVec 8) → Prop
  | [] => False
  | [c] => c = charByte '%'
  | c :: c' :: cs => if c = charByte '%' then EndsInPercent cs else EndsInPercent (c' :: cs)

def Conv.Takes : Conv → VaArg → Prop
  | .string,.ptr _ | .hex,.long _ | .dec,.long _ | .char,.int _ => True
  | _,_ => False

def Conv.shown : Conv → VaArg → List (BitVec 8)
  | .string,.ptr none => consoleBytes "(null)".toList
  | .string,.ptr (some s) => s.text
  | .hex,.long val => printHex val
  | .dec,.long val => (printDec val).getD []
  | .char,.int val => [val.setWidth 8]
  | _,_ => []

/-- Each specifier takes the next argument, and no argument is left. -/
def Fits : List Piece → List VaArg → Prop
  | [],args => args = []
  | .text _ :: ps,args => Fits ps args
  | .conv _ :: _,[] => False
  | .conv k :: ps,arg :: args => k.Takes arg ∧ Fits ps args

def rendered : List Piece → List VaArg → List (BitVec 8)
  | .text cs :: ps,args => cs ++ rendered ps args
  | .conv k :: ps,arg :: args => k.shown arg ++ rendered ps args
  | _,_ => []

/-- The call reads the format up to its NUL, ends, puts what the format and the arguments stand
for, takes all arguments, and leaves the lock released. -/
def StaysInside
    (call : CStr → List VaArg → Nat → (Uart → Console) → Option (Printing × (Uart → Console)))
    (u : Uart) (fmt : CStr) (args : List VaArg) (cons : Uart → Console) : Prop :=
  ∃ n s cons', call fmt args n cons = some (s,cons') ∧ (∀ i ∈ s.reads, i ≤ fmt.length) ∧
    s.args = [] ∧
    cons' = Function.update cons u ⟨false,(cons u).out ++ rendered (pieces fmt.text) args⟩

section Format

namespace CStr
variable (s : CStr)

theorem byte_length : s.byte s.length = 0 := Nat.find_spec s.terminated

theorem byte_ne {k : Nat} (hk : k < s.length) : s.byte k ≠ 0 := Nat.find_min s.terminated hk

theorem length_text : s.text.length = s.length := by
  rw [text,List.length_map,List.length_range]

theorem drop_text {k : Nat} (hk : k < s.length) :
    s.text.drop k = s.byte k :: s.text.drop (k + 1) := by
  have hlen := s.length_text
  rw [List.drop_eq_getElem_cons (by omega)]
  simp [text]

theorem drop_length : s.text.drop s.length = [] :=
  List.drop_eq_nil_of_le (Nat.le_of_eq s.length_text)

theorem text_ofBytes {l : List (BitVec 8)} (h : 0 ∉ l) : (ofBytes l).text = l := by
  have hlen : (ofBytes l).length = l.length := by
    refine (Nat.find_eq_iff _).mpr ⟨by simp [ofBytes],fun k hk hzero => h ?_⟩
    have hget : l[k] = 0 := by simpa [ofBytes,hk] using hzero
    exact hget ▸ List.getElem_mem hk
  rw [text,hlen]
  refine List.ext_getElem (by simp) fun k hk hk' => ?_
  simp [ofBytes,hk']

end CStr

theorem putString_eq (s : CStr) : putString s = some s.text := by
  have hscan : ∀ k j, k + j = s.length →
      scan (· + 1) some 0 s.byte (j + 1) k = (s.text.drop k,.returned) := by
    intro k j hkj
    induction j generalizing k with
    | zero =>
      obtain rfl : k = s.length := hkj
      rw [scan_stop rfl s.byte_length,s.drop_length]
    | succ j ih =>
      have hk : k < s.length := by omega
      rw [scan_go rfl (s.byte_ne hk),ih (k + 1) (by omega),s.drop_text hk]
  rw [putString,hscan 0 s.length (Nat.zero_add _)]
  rfl

theorem printDec_some (v : BitVec 64) : printDec v = some ((printDec v).getD []) := by
  by_cases hmin : v.toInt = -2 ^ 63
  · rw [printDec_min hmin,Option.getD_some]
  · obtain ⟨cs,hcs,-⟩ := printDec_reads hmin
    rw [hcs,Option.getD_some]

theorem Conv.print_eq {k : Conv} {arg : VaArg} (h : k.Takes arg) :
    k.print arg = some (k.shown arg) := by
  cases k with
  | string =>
    cases arg with
    | ptr s =>
      cases s with
      | none => rfl
      | some s => exact putString_eq s
    | _ => cases h
  | hex => cases arg with
    | long val => rfl
    | _ => cases h
  | dec => cases arg with
    | long val => exact printDec_some val
    | _ => cases h
  | char => cases arg with
    | int val => rfl
    | _ => cases h

theorem CStr.of_drop {s : CStr} {k : Nat} {c : BitVec 8} {cs : List (BitVec 8)}
    (h : s.text.drop k = c :: cs) : k < s.length ∧ s.byte k = c ∧ s.text.drop (k + 1) = cs := by
  have hk : k < s.length := by
    by_contra hge
    have hlen := s.length_text
    rw [List.drop_eq_nil_of_le (by omega)] at h
    cases h
  rw [s.drop_text hk] at h
  obtain ⟨hc,hcs⟩ := List.cons.inj h
  exact ⟨hk,hc,hcs⟩

variable {fmt : CStr} {s t : Printing} {n : Nat}

theorem printLoop_text (hzero : fmt.byte s.p ≠ 0) (hpercent : fmt.byte s.p ≠ charByte '%') :
    printLoop fmt (n + 1) s = printLoop fmt n
      ⟨s.p + 1,s.args,s.reads ++ [s.p],s.con.put [fmt.byte s.p]⟩ := by
  rw [printLoop,if_neg hzero,if_neg hpercent]

theorem printLoop_percent (hpercent : fmt.byte s.p = charByte '%') :
    printLoop fmt (n + 1) s = (printSpec fmt ⟨s.p + 1,s.args,s.reads ++ [s.p],s.con⟩).bind
      fun t => printLoop fmt n { t with p := t.p + 1 } := by
  have hzero : fmt.byte s.p ≠ 0 := by rw [hpercent]; decide
  rw [printLoop,if_neg hzero,if_pos hpercent]

theorem printSpec_reads (h : printSpec fmt s = some t) :
    t.p = s.p ∧ t.reads = s.reads ++ [s.p] := by
  unfold printSpec at h
  dsimp only at h
  split at h
  · obtain rfl := Option.some.inj h
    exact ⟨rfl,rfl⟩
  · split at h
    · cases h
    · obtain ⟨cs,-,rfl⟩ := Option.map_eq_some_iff.mp h
      exact ⟨rfl,rfl⟩

theorem printLoop_reads (h : printLoop fmt n s = some t) :
    s.p ∈ t.reads ∧ ∀ i ∈ s.reads, i ∈ t.reads := by
  induction n generalizing s with
  | zero => cases h
  | succ n ih =>
    have hfrom : ∀ i, i ∈ s.reads ++ [s.p] → i ∈ t.reads := by
      by_cases hzero : fmt.byte s.p = 0
      · rw [printLoop,if_pos hzero] at h
        obtain rfl := Option.some.inj h
        exact fun i hi => hi
      · by_cases hpercent : fmt.byte s.p = charByte '%'
        · rw [printLoop_percent hpercent] at h
          obtain ⟨t',ht',h⟩ := Option.bind_eq_some_iff.mp h
          intro i hi
          refine (ih h).2 i ?_
          rw [(printSpec_reads ht').2]
          exact List.mem_append_left _ hi
        · rw [printLoop_text hzero hpercent] at h
          exact (ih h).2
    exact ⟨hfrom _ (List.mem_append_right _ List.mem_cons_self),
      fun i hi => hfrom i (List.mem_append_left _ hi)⟩

/-- After a percent sign at its end the loop is behind the NUL. -/
theorem printLoop_outside {rest : List (BitVec 8)} (hrest : fmt.text.drop s.p = rest)
    (hend : EndsInPercent rest) (h : printLoop fmt n s = some t) : fmt.length + 1 ∈ t.reads := by
  induction rest using EndsInPercent.induct generalizing s n with
  | case1 => cases hend
  | case2 c =>
    obtain ⟨hlt,hc,hnil⟩ := CStr.of_drop hrest
    have hlast : s.p + 1 = fmt.length := by
      have hlen := fmt.length_text
      have := List.drop_eq_nil_iff.mp hnil
      omega
    cases n with
    | zero => cases h
    | succ n =>
      rw [printLoop_percent (hc.trans hend)] at h
      obtain ⟨t',ht',h⟩ := Option.bind_eq_some_iff.mp h
      have hp := (printLoop_reads h).1
      rwa [(printSpec_reads ht').1,hlast] at hp
  | case3 c' cs ih =>
    obtain ⟨hlt,hc,hcs⟩ := CStr.of_drop hrest
    obtain ⟨-,-,hcs'⟩ := CStr.of_drop hcs
    rw [EndsInPercent,if_pos rfl] at hend
    cases n with
    | zero => cases h
    | succ n =>
      rw [printLoop_percent hc] at h
      obtain ⟨t',ht',h⟩ := Option.bind_eq_some_iff.mp h
      refine ih ?_ hend h
      dsimp only
      rw [(printSpec_reads ht').1]
      exact hcs'
  | case4 c c' cs hpercent ih =>
    obtain ⟨hlt,hc,hcs⟩ := CStr.of_drop hrest
    rw [EndsInPercent,if_neg hpercent] at hend
    cases n with
    | zero => cases h
    | succ n =>
      rw [printLoop_text (fmt.byte_ne hlt) (hc ▸ hpercent)] at h
      exact ih hcs hend h

theorem printSpec_conv {k : Conv} {arg : VaArg} {args : List VaArg}
    (hk : Conv.ofByte (fmt.byte s.p) = some k) (hargs : s.args = arg :: args) (hfit : k.Takes arg) :
    printSpec fmt s = some ⟨s.p,args,s.reads ++ [s.p],s.con.put (k.shown arg)⟩ := by
  simp only [printSpec,hk,hargs,Conv.print_eq hfit,Option.map_some]

theorem printSpec_other (hk : Conv.ofByte (fmt.byte s.p) = none) : printSpec fmt s =
    some ⟨s.p,s.args,s.reads ++ [s.p],s.con.put [charByte '%',fmt.byte s.p]⟩ := by
  simp only [printSpec,hk]

theorem printLoop_other (hpercent : fmt.byte s.p = charByte '%')
    (hk : Conv.ofByte (fmt.byte (s.p + 1)) = none) : printLoop fmt (n + 1) s = printLoop fmt n
      ⟨s.p + 1 + 1,s.args,s.reads ++ [s.p] ++ [s.p + 1],
        s.con.put [charByte '%',fmt.byte (s.p + 1)]⟩ := by
  rw [printLoop_percent hpercent,printSpec_other hk,Option.bind_some]

theorem printLoop_conv {k : Conv} {arg : VaArg} {args : List VaArg}
    (hpercent : fmt.byte s.p = charByte '%') (hk : Conv.ofByte (fmt.byte (s.p + 1)) = some k)
    (hargs : s.args = arg :: args) (hfit : k.Takes arg) : printLoop fmt (n + 1) s = printLoop fmt n
      ⟨s.p + 1 + 1,args,s.reads ++ [s.p] ++ [s.p + 1],s.con.put (k.shown arg)⟩ := by
  rw [printLoop_percent hpercent,
    @printSpec_conv fmt ⟨s.p + 1,s.args,s.reads ++ [s.p],s.con⟩ k arg args hk hargs hfit,
    Option.bind_some]

theorem Console.put_put (con : Console) (cs cs' : List (BitVec 8)) :
    (con.put cs).put cs' = con.put (cs ++ cs') := by
  rw [put,put,put,List.append_assoc]

theorem reads_snoc {reads : List Nat} {p k : Nat} (h : ∀ i ∈ reads, i ≤ k) (hp : p ≤ k) :
    ∀ i ∈ reads ++ [p], i ≤ k := by
  intro i hi
  rcases List.mem_append.mp hi with hi | hi
  · exact h i hi
  · exact List.mem_singleton.mp hi ▸ hp

theorem printLoop_end (hp : s.p = fmt.length) (hargs : s.args = [])
    (hreads : ∀ i ∈ s.reads, i ≤ fmt.length) : ∃ reads, (∀ i ∈ reads, i ≤ fmt.length) ∧
      printLoop fmt (n + 1) s = some ⟨fmt.length,[],reads,s.con⟩ := by
  have hzero : fmt.byte s.p = 0 := hp ▸ fmt.byte_length
  refine ⟨s.reads ++ [s.p],reads_snoc hreads (Nat.le_of_eq hp),?_⟩
  rw [printLoop,if_pos hzero,← hargs,← hp]

theorem rendered_text (cs : List (BitVec 8)) (ps : List Piece) (args : List VaArg) :
    rendered (.text cs :: ps) args = cs ++ rendered ps args := rfl

theorem rendered_conv (k : Conv) (arg : VaArg) (ps : List Piece) (args : List VaArg) :
    rendered (.conv k :: ps) (arg :: args) = k.shown arg ++ rendered ps args := rfl

theorem rendered_nil (args : List VaArg) : rendered [] args = [] := rfl

/-- From any index the loop puts the rest of the format, and ends at the NUL. -/
theorem printLoop_inside {rest : List (BitVec 8)} (hrest : fmt.text.drop s.p = rest)
    (hp : s.p ≤ fmt.length) (hend : ¬ EndsInPercent rest) (hfit : Fits (pieces rest) s.args)
    (hreads : ∀ i ∈ s.reads, i ≤ fmt.length) :
    ∃ reads, (∀ i ∈ reads, i ≤ fmt.length) ∧ printLoop fmt (rest.length + n + 1) s =
      some ⟨fmt.length,[],reads,s.con.put (rendered (pieces rest) s.args)⟩ := by
  have hlen := fmt.length_text
  have hreads' := reads_snoc hreads hp
  induction rest using pieces.induct generalizing s n with
  | case1 =>
    have hge := List.drop_eq_nil_iff.mp hrest
    have hstart : s.p = fmt.length := by omega
    obtain ⟨reads,hin,hloop⟩ := @printLoop_end fmt s ([].length + n) hstart hfit hreads
    exact ⟨reads,hin,by rw [hloop,pieces,rendered_nil,Console.put,List.append_nil]⟩
  | case2 c =>
    obtain ⟨hlt,hc,hnil⟩ := CStr.of_drop hrest
    have hge := List.drop_eq_nil_iff.mp hnil
    have hnext : s.p + 1 = fmt.length := by omega
    obtain ⟨reads,hin,hloop⟩ := @printLoop_end fmt
      ⟨s.p + 1,s.args,s.reads ++ [s.p],s.con.put [c]⟩ n hnext hfit hreads'
    refine ⟨reads,hin,?_⟩
    rw [List.length_singleton,Nat.add_comm 1 n,printLoop_text (fmt.byte_ne hlt) (hc ▸ hend),hc,
      hloop]
    rfl
  | case3 c' cs ih =>
    obtain ⟨hlt,hc,hcs⟩ := CStr.of_drop hrest
    obtain ⟨hlt',hc',hcs'⟩ := CStr.of_drop hcs
    have hreads'' := reads_snoc hreads' hlt
    have hfuel : (charByte '%' :: c' :: cs).length + n + 1 = cs.length + (n + 1) + 1 + 1 := by
      rw [List.length_cons,List.length_cons]
      omega
    rw [EndsInPercent,if_pos rfl] at hend
    rw [pieces,if_pos rfl] at hfit ⊢
    rw [hfuel]
    cases hk : Conv.ofByte c' with
    | none =>
      rw [hk] at hfit
      obtain ⟨reads,hin,hloop⟩ := @ih ⟨s.p + 1 + 1,s.args,s.reads ++ [s.p] ++ [s.p + 1],
        s.con.put [charByte '%',c']⟩ (n + 1) hcs' hlt' hend hfit hreads''
        (reads_snoc hreads'' hlt')
      refine ⟨reads,hin,?_⟩
      rw [printLoop_other hc (hc' ▸ hk),hc',hloop,Console.put_put,rendered_text]
    | some k =>
      rw [hk] at hfit
      cases hargs : s.args with
      | nil =>
        rw [hargs] at hfit
        cases hfit
      | cons arg args =>
        rw [hargs] at hfit
        obtain ⟨reads,hin,hloop⟩ := @ih ⟨s.p + 1 + 1,args,s.reads ++ [s.p] ++ [s.p + 1],
          s.con.put (k.shown arg)⟩ (n + 1) hcs' hlt' hend hfit.2 hreads''
          (reads_snoc hreads'' hlt')
        refine ⟨reads,hin,?_⟩
        rw [printLoop_conv hc (hc' ▸ hk) hargs hfit.1,hloop,Console.put_put,rendered_conv]
  | case4 c c' cs hpercent ih =>
    obtain ⟨hlt,hc,hcs⟩ := CStr.of_drop hrest
    rw [EndsInPercent,if_neg hpercent] at hend
    rw [pieces,if_neg hpercent] at hfit ⊢
    obtain ⟨reads,hin,hloop⟩ := @ih ⟨s.p + 1,s.args,s.reads ++ [s.p],s.con.put [c]⟩ n hcs hlt hend
      hfit hreads' (reads_snoc hreads' hlt)
    refine ⟨reads,hin,?_⟩
    have hfuel : (c :: c' :: cs).length + n + 1 = (c' :: cs).length + n + 1 + 1 := by
      rw [List.length_cons]
      omega
    rw [hfuel,printLoop_text (fmt.byte_ne hlt) (hc ▸ hpercent),hc,hloop,Console.put_put,
      rendered_text]

theorem printfOn_run (u : Uart) {fmt : CStr} {args : List VaArg} {cons : Uart → Console}
    (hfree : (cons u).lock = false) (hfit : Fits (pieces fmt.text) args)
    (hend : ¬ EndsInPercent fmt.text) : ∃ s, (∀ i ∈ s.reads, i ≤ fmt.length) ∧ s.args = [] ∧
      printfOn u fmt args (fmt.length + 1) cons = some (s,Function.update cons u
        ⟨false,(cons u).out ++ rendered (pieces fmt.text) args⟩) := by
  have hstart : fmt.text.drop 0 = fmt.text := rfl
  obtain ⟨reads,hin,hloop⟩ := @printLoop_inside fmt ⟨0,args,[],{ cons u with lock := true }⟩ 0 _
    hstart (Nat.zero_le _) hend hfit (fun i hi => absurd hi List.not_mem_nil)
  rw [fmt.length_text,Nat.add_zero] at hloop
  exact ⟨_,hin,rfl,by rw [printfOn,if_neg (Bool.eq_false_iff.mp hfree),hloop]; rfl⟩

theorem printfOn_inside (u : Uart) {fmt : CStr} {args : List VaArg} {cons : Uart → Console}
    (hfree : (cons u).lock = false) (hfit : Fits (pieces fmt.text) args) :
    StaysInside (printfOn u) u fmt args cons ↔ ¬ EndsInPercent fmt.text := by
  have hstart : fmt.text.drop 0 = fmt.text := rfl
  constructor
  · rintro ⟨n,s,cons',hcall,hreads,-⟩ hend
    rw [printfOn,if_neg (Bool.eq_false_iff.mp hfree)] at hcall
    obtain ⟨t,ht,hs⟩ := Option.map_eq_some_iff.mp hcall
    obtain ⟨rfl,-⟩ := Prod.mk.inj hs
    exact absurd (hreads _ (printLoop_outside hstart hend ht)) (Nat.not_succ_le_self _)
  · intro hend
    obtain ⟨s,hin,hargs,hcall⟩ := printfOn_run u hfree hfit hend
    exact ⟨_,s,_,hcall,hin,hargs,rfl⟩

theorem printf_inside_iff (fmt : CStr) (args : List VaArg) (cons : Uart → Console)
    (hfree : ∀ u, (cons u).lock = false) (hfit : Fits (pieces fmt.text) args) :
    StaysInside kernelPrintf .kernel fmt args cons ∧ StaysInside seeosPrintf .see fmt args cons ↔
      ¬ EndsInPercent fmt.text := by
  rw [kernelPrintf,seeosPrintf,printfOn_inside .kernel (hfree _) hfit,
    printfOn_inside .see (hfree _) hfit,and_self]

end Format

theorem printf_inside_iff_fault :
    let fmt := CStr.ofString "L%d on %s at %x\n"
    let args := [.long 3,.ptr (some (.ofString "READ")),.long 0x1000]
    StaysInside kernelPrintf .kernel fmt args freeConsoles ∧
      StaysInside seeosPrintf .see fmt args freeConsoles := by
  intro fmt args
  have htext : fmt.text = consoleBytes "L%d on %s at %x\n".toList := CStr.text_ofBytes (by decide)
  refine (printf_inside_iff fmt args freeConsoles (fun _ => rfl) ?_).mpr ?_
  · rw [htext]
    exact ⟨trivial,trivial,trivial,rfl⟩
  · rw [htext]
    exact (by decide : charByte '\n' ≠ charByte '%')

/-- The format "%", with "AB" behind its NUL. -/
def openFormat : CStr := ⟨fun i => (consoleBytes ['%','\x00','A','B']).getD i 0,1,rfl⟩

theorem printf_goes_on : ¬ StaysInside kernelPrintf .kernel openFormat [] freeConsoles ∧
    ∃ s cons, kernelPrintf openFormat [] 4 freeConsoles = some (s,cons) ∧
      (cons .kernel).out = consoleBytes ['%','\x00','A','B'] ∧ s.reads = [0,1,2,3,4] := by
  have hlen : openFormat.length = 1 := (Nat.find_eq_iff _).mpr ⟨rfl,by decide⟩
  have htext : openFormat.text = [charByte '%'] := by rw [CStr.text,hlen]; rfl
  refine ⟨fun h => ?_,_,_,rfl,rfl,rfl⟩
  refine (printfOn_inside .kernel rfl ?_).mp h ?_
  · rw [htext]
    exact rfl
  · rw [htext]
    exact rfl

end Arm64

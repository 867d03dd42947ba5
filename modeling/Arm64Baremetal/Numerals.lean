import Mathlib.Data.Nat.Digits.Lemmas

/-!
Numerals to a base: a reader that takes digits only, at least one of them, and no zero in
front of another digit.
-/

set_option autoImplicit false

namespace Numerals

variable {α : Type*} (digit : α → Option Nat) (b : Nat)

def readDigits : Nat → List α → Option Nat
  | n,[] => some n
  | n,c :: cs => (digit c).bind fun d => readDigits (n * b + d) cs

def readNat : List α → Option Nat
  | [] => none
  | c :: cs => if digit c = some 0 ∧ cs ≠ [] then none else readDigits digit b 0 (c :: cs)

/-- A minus sign may stand in front. -/
def readInt (minus : α) [DecidableEq α] : List α → Option Int
  | [] => none
  | c :: cs =>
    if c = minus then (readNat digit b cs).map fun n : Nat => -(n : Int)
    else (readNat digit b (c :: cs)).map fun n : Nat => (n : Int)

variable {digit : α → Option Nat} {b : Nat}

@[simp] theorem readDigits_cons {c : α} {d : Nat} (h : digit c = some d) (n : Nat) (cs : List α) :
    readDigits digit b n (c :: cs) = readDigits digit b (n * b + d) cs := by
  rw [readDigits,h,Option.bind_some]

theorem readDigits_append {n k : Nat} {cs : List α} (h : readDigits digit b n cs = some k)
    (cs' : List α) : readDigits digit b n (cs ++ cs') = readDigits digit b k cs' := by
  induction cs generalizing n with
  | nil =>
    obtain rfl := Option.some.inj h
    rfl
  | cons c cs ih =>
    obtain ⟨d,hd,hcs⟩ := Option.bind_eq_some_iff.mp h
    rw [List.cons_append,readDigits_cons hd]
    exact ih hcs

theorem readNat_cons {c : α} {d n : Nat} {cs : List α} (hc : digit c = some d) (hd : d ≠ 0)
    (hcs : readDigits digit b d cs = some n) : readNat digit b (c :: cs) = some n := by
  have hlead : ¬ (digit c = some 0 ∧ cs ≠ []) := fun h => hd (Option.some.inj (hc.symm.trans h.1))
  rw [readNat,if_neg hlead,readDigits_cons hc,Nat.zero_mul,Nat.zero_add,hcs]

theorem readInt_minus [DecidableEq α] {minus : α} {cs : List α} {n : Nat}
    (h : readNat digit b cs = some n) :
    readInt digit b minus (minus :: cs) = some (-(n : Int)) := by
  rw [readInt,if_pos rfl,h,Option.map_some]

theorem readInt_nat [DecidableEq α] {minus : α} (hminus : digit minus = none) {cs : List α}
    {n : Nat} (h : readNat digit b cs = some n) : readInt digit b minus cs = some (n : Int) := by
  cases cs with
  | nil => cases h
  | cons c cs =>
    have hc : c ≠ minus := by
      rintro rfl
      rw [readNat,readDigits,hminus,Option.bind_none,ite_self] at h
      cases h
    rw [readInt,if_neg hc,h,Option.map_some]

variable {char : Nat → α}

theorem readDigits_reverse (hchar : ∀ d < b, digit (char d) = some d) {ds : List Nat}
    (hds : ∀ d ∈ ds, d < b) :
    readDigits digit b 0 (ds.reverse.map char) = some (Nat.ofDigits b ds) := by
  induction ds with
  | nil => rfl
  | cons d ds ih =>
    have hrest := ih fun e he => hds e (List.mem_cons_of_mem _ he)
    rw [List.reverse_cons,List.map_append,readDigits_append hrest,List.map_singleton,
      readDigits_cons (hchar d (hds d List.mem_cons_self)),Nat.ofDigits_cons]
    exact congrArg some (by rw [Nat.mul_comm,Nat.add_comm])

theorem readNat_digits (hb : 1 < b) (hchar : ∀ d < b, digit (char d) = some d) {n : Nat}
    (hn : n ≠ 0) : readNat digit b ((Nat.digits b n).reverse.map char) = some n := by
  have hne : Nat.digits b n ≠ [] := Nat.digits_ne_nil_iff_ne_zero.mpr hn
  have hall : ∀ d ∈ Nat.digits b n, d < b := fun d hd => Nat.digits_lt_base hb hd
  have hread := readDigits_reverse hchar hall
  rw [Nat.ofDigits_digits] at hread
  obtain ⟨ds,d,hds⟩ := (List.eq_nil_or_concat' _).resolve_left hne
  have hd : d ≠ 0 := by
    have hlast := Nat.getLast_digit_ne_zero b hn
    simpa [hds] using hlast
  have hdb : d < b := hall d (by simp [hds])
  rw [hds,List.reverse_append,List.reverse_singleton,List.singleton_append,List.map_cons] at hread ⊢
  rw [readDigits_cons (hchar d hdb),Nat.zero_mul,Nat.zero_add] at hread
  exact readNat_cons (hchar d hdb) hd hread

end Numerals

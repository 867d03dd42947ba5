import Arm64Baremetal.KernelUart
import Arm64Baremetal.Runs

/-!
kernel_puts, kernel_printf and their copies on one UART, which the threads use under one lock or,
as EL3 and SEEOS do, under a lock each. A byte goes through the FIFO of the UART, which its flag
register only tells to be full.
-/

set_option autoImplicit false

namespace Arm64.UartLock
open Runs Numerals

def hexLoop (value : BitVec 64) : Nat → List (BitVec 8)
  | 0 => []
  | n + 1 => nibbleChar (((value >>> (4 * n)) &&& 0xF).setWidth 8) :: hexLoop value n

/-- `hex` is kernel_hex up to its kernel_puts. -/
inductive PutCall where
  | puts (s : CStr)
  | printf (fmt : CStr) (args : List VaArg)
  | hex (value : BitVec 64)

def PutCall.locked : PutCall → Bool
  | .puts _ | .printf _ _ => true
  | .hex _ => false

def PutCall.bytes : PutCall → Option (List (BitVec 8))
  | .puts s => putString s
  | .printf fmt args => (printLoop fmt (fmt.length + 1) ⟨0,args,[],⟨true,[]⟩⟩).map (·.con.out)
  | .hex value => some (hexLoop value 16)

theorem bytes_puts (s : CStr) : (PutCall.puts s).bytes = some s.text := putString_eq s

theorem bytes_printf {fmt : CStr} {args : List VaArg} (hfit : Fits (pieces fmt.text) args)
    (hend : ¬ EndsInPercent fmt.text) :
    (PutCall.printf fmt args).bytes = some (rendered (pieces fmt.text) args) := by
  have hfree : (freeConsoles .kernel).lock = false := rfl
  obtain ⟨s,-,-,hcall⟩ := printfOn_run .kernel hfree hfit hend
  rw [printfOn,if_neg (by rw [hfree]; decide)] at hcall
  obtain ⟨t,ht,hcons⟩ := Option.map_eq_some_iff.mp hcall
  have hout := congrArg (fun x => (x.2 .kernel).out) hcons
  simp only [Function.update_self] at hout
  rw [PutCall.bytes]
  exact Option.map_eq_some_iff.mpr ⟨t,ht,hout⟩

theorem bytes_hex (value : BitVec 64) : ∃ cs, (PutCall.hex value).bytes = some cs ∧
    cs.length = 16 ∧ readDigits hexDigit 16 0 cs = some value.toNat := by
  have hloop : ∀ n, hexLoop value n = hexDigits value n true := by
    intro n
    induction n with
    | zero => rfl
    | succ n ih => rw [hexLoop,hexDigits,if_pos (Or.inr rfl),ih]
  have hmod : value.toNat % 16 ^ 16 = value.toNat := Nat.mod_eq_of_lt value.isLt
  refine ⟨_,rfl,rfl,?_⟩
  rw [hloop,hexDigits_reads,hmod,Nat.zero_mul,Nat.zero_add]

/-- Where a thread is: at the exchange of the lock, at a read of the flag register or behind its
last byte, or at a store to the data register. -/
inductive Putter where
  | idle
  | acquire (cs : List (BitVec 8))
  | test (locked : Bool) (cs : List (BitVec 8))
  | store (locked : Bool) (c : BitVec 8) (cs : List (BitVec 8))

/-- `stored` are all stores to the data register, and `taken` the messages whose threads have got
their lock, each in order. -/
structure Port (ι δ : Type*) where
  fifo : List (BitVec 8)
  line : List (BitVec 8)
  lock : δ → Bool
  putter : ι → Putter
  stored : List (ι × Bool × BitVec 8)
  taken : List (ι × List (BitVec 8))

/-- `drain` sends the first byte of the FIFO. -/
inductive PortEvent (ι : Type*) where
  | call (i : ι) (k : PutCall)
  | turn (i : ι)
  | drain

variable {ι δ : Type*}

def Port.start : Port ι δ where
  fifo := []
  line := []
  lock _ := false
  putter _ := .idle
  stored := []
  taken := []

section Step
variable [DecidableEq ι] [DecidableEq δ] (lockOf : ι → δ) (depth : Nat)

def Port.setPutter (i : ι) (p : Putter) (s : Port ι δ) : Port ι δ :=
  { s with putter := Function.update s.putter i p }

def Port.turn (i : ι) (s : Port ι δ) : Putter → Port ι δ
  | .idle => s
  | .acquire cs =>
    if s.lock (lockOf i) then s
    else
      Port.setPutter i (.test true cs)
        { s with lock := Function.update s.lock (lockOf i) true, taken := s.taken ++ [(i,cs)] }
  | .test locked [] =>
    Port.setPutter i .idle
      { s with lock := if locked then Function.update s.lock (lockOf i) false else s.lock }
  | .test locked (c :: cs) =>
    if depth ≤ s.fifo.length then s else s.setPutter i (.store locked c cs)
  | .store locked c cs =>
    Port.setPutter i (.test locked cs)
      { s with
        fifo := if s.fifo.length < depth then s.fifo ++ [c] else s.fifo
        stored := s.stored ++ [(i,locked,c)] }

def portStep (s : Port ι δ) : PortEvent ι → Port ι δ
  | .call i k =>
    match s.putter i,k.bytes with
    | .idle,some cs => s.setPutter i (if k.locked then .acquire cs else .test false cs)
    | _,_ => s
  | .turn i => s.turn lockOf depth i (s.putter i)
  | .drain =>
    match s.fifo with
    | [] => s
    | c :: cs => { s with fifo := cs, line := s.line ++ [c] }

end Step

/-- Between the exchange that took the lock and the store that gives it back. -/
def Putter.Holds : Putter → Prop
  | .test locked _ | .store locked _ _ => locked = true
  | _ => False

def Putter.rest : Putter → List (BitVec 8)
  | .test _ cs => cs
  | .store _ c cs => c :: cs
  | _ => []

section Messages
variable [DecidableEq δ] (lockOf : ι → δ)

def Port.messages (s : Port ι δ) (d : δ) : List (BitVec 8) :=
  (s.taken.filter fun x => lockOf x.1 = d).flatMap (·.2)

def Port.storedUnder (s : Port ι δ) (d : δ) : List (BitVec 8) :=
  (s.stored.filter fun x => x.2.1 && lockOf x.1 = d).map (·.2.2)

end Messages

section Held
variable [DecidableEq ι] [DecidableEq δ] {lockOf : ι → δ} {depth : Nat} {s s' : Port ι δ}
  {holder : δ → Option ι} {i : ι}

/-- `holder` are the threads that have a lock, and what has been stored under each lock are the
messages but for what its holder has still to store. -/
structure HeldBy (lockOf : ι → δ) (s : Port ι δ) (holder : δ → Option ι) : Prop where
  holds : ∀ i, (s.putter i).Holds ↔ holder (lockOf i) = some i
  own : ∀ d i, holder d = some i → lockOf i = d
  locked : ∀ d, s.lock d = (holder d).isSome
  messages : ∀ d, s.messages lockOf d =
    s.storedUnder lockOf d ++ (holder d).elim [] fun i => (s.putter i).rest

omit [DecidableEq ι] in
theorem heldBy_start : HeldBy lockOf (Port.start : Port ι δ) fun _ => none where
  holds _ := iff_of_false nofun nofun
  own _ _ h := nomatch h
  locked _ := rfl
  messages _ := rfl

omit [DecidableEq ι] in
theorem messages_snoc {cs : List (BitVec 8)} (h : s'.taken = s.taken ++ [(i,cs)]) (d : δ) :
    s'.messages lockOf d = s.messages lockOf d ++ if lockOf i = d then cs else [] := by
  simp only [Port.messages,h,List.filter_append,List.flatMap_append]
  split <;> simp [*]

omit [DecidableEq ι] in
theorem storedUnder_snoc {locked : Bool} {c : BitVec 8}
    (h : s'.stored = s.stored ++ [(i,locked,c)]) (d : δ) : s'.storedUnder lockOf d =
    s.storedUnder lockOf d ++ if locked ∧ lockOf i = d then [c] else [] := by
  simp only [Port.storedUnder,h,List.filter_append,List.map_append]
  split <;> simp_all

omit [DecidableEq δ] in
theorem rest_other {p : Putter} {d : δ} (hputter : s'.putter = Function.update s.putter i p)
    (hi : holder d ≠ some i) : ((holder d).elim [] fun j => (s'.putter j).rest) =
      (holder d).elim [] fun j => (s.putter j).rest := by
  cases hd : holder d with
  | none => rfl
  | some j =>
    have hj : j ≠ i := by
      rintro rfl
      exact hi hd
    rw [Option.elim_some,Option.elim_some,hputter,Function.update_of_ne hj]

omit [DecidableEq ι] in
theorem HeldBy.not_holder (h : HeldBy lockOf s holder) {d : δ} (hd : lockOf i ≠ d) :
    holder d ≠ some i := fun hi => hd (h.own d i hi)

theorem HeldBy.quiet (h : HeldBy lockOf s holder) {p : Putter}
    (hputter : s'.putter = Function.update s.putter i p) (hbefore : ¬ (s.putter i).Holds)
    (hafter : ¬ p.Holds) (hlock : s'.lock = s.lock)
    (hmessages : ∀ d, s'.messages lockOf d = s.messages lockOf d)
    (hstored : ∀ d, s'.storedUnder lockOf d = s.storedUnder lockOf d) :
    HeldBy lockOf s' holder := by
  have hi : ∀ d, holder d ≠ some i := fun d hd =>
    hbefore ((h.holds i).mpr (h.own d i hd ▸ hd))
  refine ⟨fun j => ?_,h.own,fun d => by rw [hlock,h.locked],fun d => ?_⟩
  · by_cases hj : j = i
    · subst hj
      rw [hputter,Function.update_self]
      exact iff_of_false hafter (hi _)
    · rw [hputter,Function.update_of_ne hj]
      exact h.holds j
  · rw [hmessages,hstored,h.messages,rest_other hputter (hi d)]

theorem HeldBy.busy (h : HeldBy lockOf s holder) {p : Putter} (out : List (BitVec 8))
    (hputter : s'.putter = Function.update s.putter i p) (hbefore : (s.putter i).Holds)
    (hafter : p.Holds) (hrest : (s.putter i).rest = out ++ p.rest) (hlock : s'.lock = s.lock)
    (hmessages : ∀ d, s'.messages lockOf d = s.messages lockOf d)
    (hstored : ∀ d, s'.storedUnder lockOf d =
      s.storedUnder lockOf d ++ if lockOf i = d then out else []) : HeldBy lockOf s' holder := by
  have hi := (h.holds i).mp hbefore
  refine ⟨fun j => ?_,h.own,fun d => by rw [hlock,h.locked],fun d => ?_⟩
  · by_cases hj : j = i
    · subst hj
      rw [hputter,Function.update_self]
      exact iff_of_true hafter hi
    · rw [hputter,Function.update_of_ne hj]
      exact h.holds j
  · rw [hmessages,hstored,h.messages]
    by_cases hd : lockOf i = d
    · subst hd
      rw [hi,Option.elim_some,Option.elim_some,hputter,Function.update_self,hrest,if_pos rfl,
        List.append_assoc]
    · rw [if_neg hd,List.append_nil,rest_other hputter (h.not_holder hd)]

theorem HeldBy.take (h : HeldBy lockOf s holder) {cs : List (BitVec 8)}
    (hp : s.putter i = .acquire cs) (hfree : s.lock (lockOf i) = false)
    (hputter : s'.putter = Function.update s.putter i (.test true cs))
    (hlock : s'.lock = Function.update s.lock (lockOf i) true)
    (htaken : s'.taken = s.taken ++ [(i,cs)]) (hstored : s'.stored = s.stored) :
    HeldBy lockOf s' (Function.update holder (lockOf i) (some i)) := by
  have hnone : holder (lockOf i) = none := by
    have hlocked := h.locked (lockOf i)
    rw [hfree] at hlocked
    exact Option.not_isSome_iff_eq_none.mp (by rw [← hlocked]; decide)
  have hunder : ∀ d, s'.storedUnder lockOf d = s.storedUnder lockOf d := fun d => by
    simp only [Port.storedUnder,hstored]
  refine ⟨fun j => ?_,fun d j hd => ?_,fun d => ?_,fun d => ?_⟩
  · by_cases hj : j = i
    · subst hj
      rw [hputter,Function.update_self,Function.update_self]
      exact iff_of_true rfl rfl
    · rw [hputter,Function.update_of_ne hj,h.holds j]
      by_cases hd : lockOf j = lockOf i
      · rw [hd,Function.update_self,hnone]
        exact iff_of_false nofun fun he => hj (Option.some.inj he).symm
      · rw [Function.update_of_ne hd]
  · by_cases hdi : d = lockOf i
    · subst hdi
      rw [Function.update_self] at hd
      exact Option.some.inj hd ▸ rfl
    · rw [Function.update_of_ne hdi] at hd
      exact h.own d j hd
  · by_cases hdi : d = lockOf i
    · subst hdi
      rw [hlock,Function.update_self,Function.update_self]
      rfl
    · rw [hlock,Function.update_of_ne hdi,Function.update_of_ne hdi]
      exact h.locked d
  · rw [messages_snoc htaken,h.messages,hunder]
    by_cases hdi : lockOf i = d
    · subst hdi
      rw [hnone,Option.elim_none,List.append_nil,if_pos rfl,Function.update_self,
        Option.elim_some,hputter,Function.update_self]
      rfl
    · rw [if_neg hdi,List.append_nil,Function.update_of_ne (Ne.symm hdi),
        rest_other hputter (h.not_holder hdi)]

theorem HeldBy.give (h : HeldBy lockOf s holder) (hp : s.putter i = .test true [])
    (hputter : s'.putter = Function.update s.putter i .idle)
    (hlock : s'.lock = Function.update s.lock (lockOf i) false)
    (htaken : s'.taken = s.taken) (hstored : s'.stored = s.stored) :
    HeldBy lockOf s' (Function.update holder (lockOf i) none) := by
  have hi : holder (lockOf i) = some i := (h.holds i).mp (by rw [hp]; rfl)
  have hunder : ∀ d, s'.storedUnder lockOf d = s.storedUnder lockOf d := fun d => by
    simp only [Port.storedUnder,hstored]
  refine ⟨fun j => ?_,fun d j hd => ?_,fun d => ?_,fun d => ?_⟩
  · by_cases hj : j = i
    · subst hj
      rw [hputter,Function.update_self,Function.update_self]
      exact iff_of_false nofun nofun
    · rw [hputter,Function.update_of_ne hj,h.holds j]
      by_cases hd : lockOf j = lockOf i
      · rw [hd,Function.update_self,hi]
        exact iff_of_false (fun he => hj (Option.some.inj he).symm) nofun
      · rw [Function.update_of_ne hd]
  · by_cases hdi : d = lockOf i
    · subst hdi
      rw [Function.update_self] at hd
      exact nomatch hd
    · rw [Function.update_of_ne hdi] at hd
      exact h.own d j hd
  · by_cases hdi : d = lockOf i
    · subst hdi
      rw [hlock,Function.update_self,Function.update_self]
      rfl
    · rw [hlock,Function.update_of_ne hdi,Function.update_of_ne hdi]
      exact h.locked d
  · have hmessages : s'.messages lockOf d = s.messages lockOf d := by
      simp only [Port.messages,htaken]
    rw [hmessages,h.messages,hunder]
    by_cases hdi : lockOf i = d
    · subst hdi
      rw [hi,Option.elim_some,hp,Function.update_self]
      rfl
    · rw [Function.update_of_ne (Ne.symm hdi),rest_other hputter (h.not_holder hdi)]

/-- Locks that only threads of their own take keep their messages in order, whatever else is
stored. -/
theorem HeldBy.step (h : HeldBy lockOf s holder) (e : PortEvent ι) :
    ∃ holder', HeldBy lockOf (portStep lockOf depth s e) holder' := by
  cases e with
  | call i k =>
    simp only [portStep]
    split
    next cs hp hk =>
      refine ⟨holder,h.quiet rfl (by rw [hp]; nofun) ?_ rfl (fun _ => rfl) fun _ => rfl⟩
      split <;> nofun
    next => exact ⟨holder,h⟩
  | turn i =>
    simp only [portStep]
    cases hp : s.putter i with
    | idle => exact ⟨holder,h⟩
    | acquire cs =>
      simp only [Port.turn]
      split
      next => exact ⟨holder,h⟩
      next hfree => exact ⟨_,h.take hp (by simpa using hfree) rfl rfl rfl rfl⟩
    | test locked cs =>
      cases cs with
      | nil =>
        cases locked with
        | true => exact ⟨_,h.give hp rfl rfl rfl rfl⟩
        | false =>
          exact ⟨holder,h.quiet rfl (by rw [hp]; nofun) nofun rfl (fun _ => rfl) fun _ => rfl⟩
      | cons c cs =>
        simp only [Port.turn]
        split
        · exact ⟨holder,h⟩
        · cases locked with
          | true =>
            refine ⟨holder,h.busy [] rfl (by rw [hp]; rfl) rfl (by rw [hp]; rfl) rfl
              (fun _ => rfl) fun d => ?_⟩
            rw [ite_self,List.append_nil]
            rfl
          | false =>
            exact ⟨holder,h.quiet rfl (by rw [hp]; nofun) nofun rfl (fun _ => rfl) fun _ => rfl⟩
    | store locked c cs =>
      have hsnoc (d : δ) : (s.turn lockOf depth i (.store locked c cs)).storedUnder lockOf d =
          s.storedUnder lockOf d ++ if locked ∧ lockOf i = d then [c] else [] :=
        storedUnder_snoc rfl d
      cases locked with
      | true =>
        refine ⟨holder,h.busy [c] rfl (by rw [hp]; rfl) rfl (by rw [hp]; rfl) rfl
          (fun _ => rfl) fun d => ?_⟩
        simpa using hsnoc d
      | false =>
        refine ⟨holder,h.quiet rfl (by rw [hp]; nofun) nofun rfl (fun _ => rfl) fun d => ?_⟩
        simpa using hsnoc d
  | drain =>
    simp only [portStep]
    split
    · exact ⟨holder,h⟩
    · exact ⟨holder,h.holds,h.own,h.locked,h.messages⟩

end Held

/-- Neither in a loop of kernel_hex. -/
def Putter.Locked : Putter → Prop
  | .test locked _ | .store locked _ _ => locked = true
  | _ => True

def PortEvent.Locked : PortEvent ι → Prop
  | .call _ k => k.locked = true
  | _ => True

instance : (e : PortEvent ι) → Decidable e.Locked
  | .call _ k => inferInstanceAs (Decidable (k.locked = true))
  | .turn _ | .drain => inferInstanceAs (Decidable True)

section Lossless
variable [DecidableEq ι] [DecidableEq δ] {lockOf : ι → δ} {depth : Nat} {s s' : Port ι δ}
  {d : δ}

/-- All threads use the lock `d`, and none stores without it. -/
structure Lossless (depth : Nat) (s : Port ι δ) : Prop where
  inOrder : s.stored.map (·.2.2) = s.line ++ s.fifo
  room : ∀ i locked c cs, s.putter i = .store locked c cs → s.fifo.length < depth
  locked : ∀ i, (s.putter i).Locked
  under : ∀ x ∈ s.stored, x.2.1 = true

omit [DecidableEq ι] [DecidableEq δ] in
theorem lossless_start : Lossless depth (Port.start : Port ι δ) :=
  ⟨rfl,nofun,fun _ => trivial,nofun⟩

omit [DecidableEq δ] in
theorem Lossless.move (h : Lossless depth s) {i : ι} {p : Putter}
    (hputter : s'.putter = Function.update s.putter i p) (hfifo : s'.fifo = s.fifo)
    (hline : s'.line = s.line) (hstored : s'.stored = s.stored) (hp : p.Locked)
    (hroom : ∀ locked c cs, p = .store locked c cs → s.fifo.length < depth) :
    Lossless depth s' := by
  refine ⟨by rw [hstored,hline,hfifo,h.inOrder],fun j locked c cs hj => ?_,fun j => ?_,
    hstored ▸ h.under⟩
  · rw [hputter] at hj
    rw [hfifo]
    by_cases hji : j = i
    · subst hji
      rw [Function.update_self] at hj
      exact hroom locked c cs hj
    · rw [Function.update_of_ne hji] at hj
      exact h.room j locked c cs hj
  · rw [hputter]
    by_cases hji : j = i
    · subst hji
      rwa [Function.update_self]
    · rw [Function.update_of_ne hji]
      exact h.locked j

/-- Only the thread that has the lock can be at a store, and it has seen that there is room. -/
theorem Lossless.store (h : Lossless depth s) {holder : δ → Option ι}
    (hheld : HeldBy lockOf s holder) (hone : ∀ i, lockOf i = d) {i : ι} {locked : Bool}
    {c : BitVec 8} {cs : List (BitVec 8)} (hp : s.putter i = .store locked c cs) :
    Lossless depth (s.turn lockOf depth i (.store locked c cs)) := by
  have hroom := h.room i locked c cs hp
  have hlocked : locked = true := by simpa [hp,Putter.Locked] using h.locked i
  have hi : holder d = some i := by
    have hholds := (hheld.holds i).mp (by rw [hp]; exact hlocked)
    rwa [hone i] at hholds
  simp only [Port.turn,if_pos hroom]
  refine ⟨?_,fun j l c' cs' hj => ?_,fun j => ?_,fun x hx => ?_⟩
  · simp only [Port.setPutter,List.map_append,h.inOrder,List.append_assoc,List.map_cons,
      List.map_nil]
  · by_cases hji : j = i
    · subst hji
      exact nomatch (Function.update_self ..).symm.trans hj
    · have hj' : s.putter j = .store l c' cs' := (Function.update_of_ne hji _ _).symm.trans hj
      have hl : l = true := by simpa [hj',Putter.Locked] using h.locked j
      have hholds := (hheld.holds j).mp (by rw [hj']; exact hl)
      rw [hone j,hi] at hholds
      exact absurd (Option.some.inj hholds).symm hji
  · change (Function.update s.putter i (.test locked cs) j).Locked
    by_cases hji : j = i
    · rw [hji,Function.update_self]
      exact hlocked
    · rw [Function.update_of_ne hji]
      exact h.locked j
  · rcases List.mem_append.mp hx with hx | hx
    · exact h.under x hx
    · rw [List.mem_singleton.mp hx]
      exact hlocked

theorem Lossless.step (h : Lossless depth s) {holder : δ → Option ι}
    (hheld : HeldBy lockOf s holder) (hone : ∀ i, lockOf i = d) {e : PortEvent ι}
    (he : e.Locked) : Lossless depth (portStep lockOf depth s e) := by
  cases e with
  | call i k =>
    have hk : k.locked = true := he
    simp only [portStep,hk,if_true]
    split
    · exact h.move rfl rfl rfl rfl trivial nofun
    · exact h
  | turn i =>
    simp only [portStep]
    cases hp : s.putter i with
    | idle => exact h
    | acquire cs =>
      simp only [Port.turn]
      split
      · exact h
      · exact h.move rfl rfl rfl rfl rfl nofun
    | test locked cs =>
      have hlocked : locked = true := by simpa [hp,Putter.Locked] using h.locked i
      cases cs with
      | nil => exact h.move rfl rfl rfl rfl trivial nofun
      | cons c cs =>
        simp only [Port.turn]
        split
        next => exact h
        next hroom => exact h.move rfl rfl rfl rfl hlocked fun _ _ _ _ => Nat.not_le.mp hroom
    | store locked c cs => exact h.store hheld hone hp
  | drain =>
    simp only [portStep]
    split
    next => exact h
    next c cs hfifo =>
      refine ⟨?_,fun i l c' cs' hi => ?_,h.locked,h.under⟩
      · rw [h.inOrder,hfifo,List.append_assoc]
        rfl
      · have hroom := h.room i l c' cs' hi
        rw [hfifo,List.length_cons] at hroom
        exact Nat.lt_of_succ_lt hroom

end Lossless

section Results
variable [DecidableEq ι] [DecidableEq δ] (lockOf : ι → δ) (depth : Nat)

theorem heldBy_run (es : List (PortEvent ι)) :
    ∃ holder, HeldBy lockOf (exec (portStep lockOf depth) .start es) holder :=
  exec_keeps (I := fun s => ∃ holder, HeldBy lockOf s holder) (fun _ e ⟨_,h⟩ => h.step e)
    ⟨_,heldBy_start⟩ es

/-- The messages of the threads that have got the lock `d` are what has been sent, one after the
other and each of them whole, but for the rest of the one whose thread has it. -/
structure InOrder (s : Port ι δ) (d : δ) (sent : List (BitVec 8)) : Prop where
  free : s.lock d = false → s.messages lockOf d = sent
  held : s.lock d = true → ∃ i, lockOf i = d ∧ (s.putter i).Holds ∧
    s.messages lockOf d = sent ++ (s.putter i).rest

omit [DecidableEq ι] in
variable {lockOf depth} in
theorem HeldBy.inOrder {s : Port ι δ} {holder : δ → Option ι} (h : HeldBy lockOf s holder) (d : δ) :
    InOrder lockOf s d (s.storedUnder lockOf d) := by
  have hlocked := h.locked d
  have hmessages := h.messages d
  cases hd : holder d with
  | none =>
    rw [hd] at hlocked hmessages
    exact ⟨fun _ => hmessages.trans (List.append_nil _),fun ht => (nomatch ht.symm.trans hlocked)⟩
  | some i =>
    rw [hd] at hlocked hmessages
    have hi := h.own d i hd
    exact ⟨fun hf => (nomatch hf.symm.trans hlocked),
      fun _ => ⟨i,hi,(h.holds i).mpr (hi ▸ hd),hmessages⟩⟩

/-- Whatever the threads of other locks and of kernel_hex store between them, the bytes of the
messages under one lock are stored message by message. -/
theorem uart_messages_in_order (es : List (PortEvent ι)) (d : δ) :
    InOrder lockOf (exec (portStep lockOf depth) .start es) d
      ((exec (portStep lockOf depth) .start es).storedUnder lockOf d) := by
  obtain ⟨holder,h⟩ := heldBy_run lockOf depth es
  exact h.inOrder d

/-- When all threads use one lock, then no store finds the FIFO full: what has gone out and what
the FIFO holds are the messages. -/
theorem uart_loses_nothing (d : δ) (hone : ∀ i, lockOf i = d) (es : List (PortEvent ι))
    (hlocked : ∀ e ∈ es, e.Locked) :
    InOrder lockOf (exec (portStep lockOf depth) .start es) d
      ((exec (portStep lockOf depth) .start es).line ++
        (exec (portStep lockOf depth) .start es).fifo) := by
  obtain ⟨⟨holder,hheld⟩,hlossless⟩ := exec_invariant (P := fun _ e => PortEvent.Locked e)
    (I := fun s => (∃ holder, HeldBy lockOf s holder) ∧ Lossless depth s)
    (fun _ e ⟨⟨_,hheld⟩,h⟩ he => ⟨hheld.step e,h.step hheld hone he⟩)
    ⟨⟨_,heldBy_start⟩,lossless_start⟩ (along_of_mem (portStep lockOf depth) .start hlocked)
  have hall : (exec (portStep lockOf depth) .start es).storedUnder lockOf d =
      (exec (portStep lockOf depth) .start es).line ++
        (exec (portStep lockOf depth) .start es).fifo := by
    rw [← hlossless.inOrder,Port.storedUnder,List.filter_eq_self.mpr]
    intro x hx
    simp [hlossless.under x hx,hone]
  exact hall ▸ hheld.inOrder d

/-- Two threads, and a FIFO for one byte. -/
theorem uart_loses_nothing_waiting :
    let lockOf (_ : Bool) : Unit := ()
    let es := [.call true (.puts (.ofString "ab")),.call false (.puts (.ofString "c")),
      .turn false,.turn true,.turn false,.turn false,.turn false,.drain,.turn true,.turn true]
    let s := exec (portStep lockOf 1) .start es
    InOrder lockOf s () (s.line ++ s.fifo) :=
  uart_loses_nothing _ 1 () (fun _ => rfl) _ (by decide)

end Results

end Arm64.UartLock

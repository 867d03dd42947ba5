import Mathlib.Logic.Function.Iterate

/-!
The loop `while (*s) put(*s++)` over memory that is reached through a translation, and what
its output can depend on: a loop that only reads public locations, and no other, has the
same output in all memories that agree on these.
-/

set_option autoImplicit false

namespace StringScan

variable {α β υ : Type} [DecidableEq υ]

inductive Ended where
  | returned | faulted | running
  deriving DecidableEq

/-- What the loop puts in its first `n` tests, and how it ended. -/
def scan (next : α → α) (loc : α → Option β) (stop : υ) (mem : β → υ) :
    Nat → α → List υ × Ended
  | 0,_ => ([],.running)
  | n + 1,s =>
    match loc s with
    | none => ([],.faulted)
    | some b =>
      if mem b = stop then ([],.returned)
      else
        let r := scan next loc stop mem n (next s)
        (mem b :: r.1,r.2)

def reads (next : α → α) (loc : α → Option β) (stop : υ) (mem : β → υ) : Nat → α → List β
  | 0,_ => []
  | n + 1,s =>
    match loc s with
    | none => []
    | some b => if mem b = stop then [b] else b :: reads next loc stop mem n (next s)

section Step

variable {next : α → α} {loc : α → Option β} {stop : υ} {mem : β → υ} {n : Nat} {s : α} {b : β}

theorem scan_none (h : loc s = none) : scan next loc stop mem (n + 1) s = ([],.faulted) := by
  rw [scan,h]

theorem scan_stop (h : loc s = some b) (hb : mem b = stop) :
    scan next loc stop mem (n + 1) s = ([],.returned) := by
  simp only [scan,h,if_pos hb]

theorem scan_go (h : loc s = some b) (hb : mem b ≠ stop) :
    scan next loc stop mem (n + 1) s =
      (mem b :: (scan next loc stop mem n (next s)).1,
        (scan next loc stop mem n (next s)).2) := by
  simp only [scan,h,if_neg hb]

theorem reads_stop (h : loc s = some b) (hb : mem b = stop) :
    reads next loc stop mem (n + 1) s = [b] := by
  simp only [reads,h,if_pos hb]

theorem reads_go (h : loc s = some b) (hb : mem b ≠ stop) :
    reads next loc stop mem (n + 1) s = b :: reads next loc stop mem n (next s) := by
  simp only [reads,h,if_neg hb]

end Step

variable (next : α → α) (loc : α → Option β) (stop : υ) (mem : β → υ)

/-- The output depends on the locations that are read. -/
theorem scan_congr {mem' : β → υ} {n : Nat} {s : α}
    (h : ∀ b ∈ reads next loc stop mem n s, mem' b = mem b) :
    scan next loc stop mem' n s = scan next loc stop mem n s := by
  induction n generalizing s with
  | zero => rfl
  | succ n ih =>
    cases hs : loc s with
    | none => rw [scan_none hs,scan_none hs]
    | some b =>
      by_cases hb : mem b = stop
      · rw [reads_stop hs hb] at h
        have hb' : mem' b = stop := (h b List.mem_cons_self).trans hb
        rw [scan_stop hs hb,scan_stop hs hb']
      · rw [reads_go hs hb] at h
        have hb' := h b List.mem_cons_self
        rw [scan_go hs hb,scan_go hs (hb' ▸ hb),hb',
          ih fun c hc => h c (List.mem_cons_of_mem _ hc)]

/-- The loop comes to test `k`: it has put a character in each test before. -/
def Reaches (s : α) (k : Nat) : Prop := ∀ j < k, ∃ b, loc (next^[j] s) = some b ∧ mem b ≠ stop

omit [DecidableEq υ] in
theorem reaches_succ (s : α) (k : Nat) : Reaches next loc stop mem s (k + 1) ↔
    (∃ b, loc s = some b ∧ mem b ≠ stop) ∧ Reaches next loc stop mem (next s) k := by
  constructor
  · intro h
    exact ⟨h 0 (Nat.succ_pos k),fun j hj => h (j + 1) (Nat.succ_lt_succ hj)⟩
  · rintro ⟨h0,h⟩ (_ | j) hj
    · exact h0
    · exact h j (Nat.lt_of_succ_lt_succ hj)

theorem mem_reads_iff {n : Nat} {s : α} {b : β} : b ∈ reads next loc stop mem n s ↔
    ∃ k < n, Reaches next loc stop mem s k ∧ loc (next^[k] s) = some b := by
  induction n generalizing s with
  | zero => simp [reads]
  | succ n ih =>
    -- the first test reads `loc s`, the others are those of the rest
    have hfirst : (∃ k < n + 1, Reaches next loc stop mem s k ∧ loc (next^[k] s) = some b) ↔
        loc s = some b ∨ ∃ k < n, Reaches next loc stop mem s (k + 1) ∧
          loc (next^[k] (next s)) = some b := by
      constructor
      · rintro ⟨_ | k,hk,hr,hb⟩
        · exact Or.inl hb
        · exact Or.inr ⟨k,Nat.lt_of_succ_lt_succ hk,hr,hb⟩
      · rintro (hb | ⟨k,hk,hr,hb⟩)
        · exact ⟨0,Nat.succ_pos n,fun j hj => absurd hj (Nat.not_lt_zero j),hb⟩
        · exact ⟨k + 1,Nat.succ_lt_succ hk,hr,hb⟩
    rw [hfirst]
    simp only [reaches_succ]
    cases hs : loc s with
    | none => simp [reads,hs]
    | some a =>
      by_cases ha : mem a = stop
      · simp [reads_stop hs ha,ha,@eq_comm _ b]
      · simp [reads_go hs ha,ha,ih,@eq_comm _ b]

/-- Where two locations in a row are alike unless the second one starts a page, a look at
the first location and at the start of each page is enough. -/
theorem checked_iff {Public : β → Prop} (pageStart : α → Prop) {s : α}
    (hsame : ∀ a b b', ¬ pageStart (next a) → loc a = some b → loc (next a) = some b' →
      Public b → Public b') :
    (∀ n, ∀ b ∈ reads next loc stop mem n s, Public b) ↔
      ∀ k, Reaches next loc stop mem s k → k = 0 ∨ pageStart (next^[k] s) →
        ∀ b, loc (next^[k] s) = some b → Public b := by
  constructor
  · intro h k hr _ b hb
    exact h (k + 1) b ((mem_reads_iff next loc stop mem).mpr ⟨k,Nat.lt_succ_self k,hr,hb⟩)
  · intro h
    have hall : ∀ k b, Reaches next loc stop mem s k → loc (next^[k] s) = some b → Public b := by
      intro k
      induction k with
      | zero => exact fun b hr hb => h 0 hr (Or.inl rfl) b hb
      | succ k ih =>
        intro b hr hb
        by_cases hp : pageStart (next^[k + 1] s)
        · exact h (k + 1) hr (Or.inr hp) b hb
        · obtain ⟨a,ha,_⟩ := hr k (Nat.lt_succ_self k)
          have hpublic := ih a (fun j hj => hr j (Nat.lt_succ_of_lt hj)) ha
          rw [Function.iterate_succ_apply'] at hp hb
          exact hsame _ a b hp ha hb hpublic
    intro n b hb
    obtain ⟨k,_,hr,hb⟩ := (mem_reads_iff next loc stop mem).mp hb
    exact hall k b hr hb

section Secrets
variable [DecidableEq β]

theorem scan_differs {Public : β → Prop} {other : υ} (hother : other ≠ stop) {n : Nat} {s : α}
    {b : β} (hb : b ∈ reads next loc stop mem n s) (hp : ¬ Public b) :
    ∃ mem' : β → υ, (∀ c, Public c → mem' c = mem c) ∧
      ∃ n, (scan next loc stop mem' n s).1 ≠ (scan next loc stop mem n s).1 := by
  induction n generalizing s with
  | zero => simp [reads] at hb
  | succ n ih =>
    cases hs : loc s with
    | none => simp [reads,hs] at hb
    | some a =>
      by_cases ha : Public a
      · -- a public location, so a later one was meant
        by_cases hm : mem a = stop
        · rw [reads_stop hs hm,List.mem_singleton] at hb
          exact absurd (hb ▸ ha) hp
        rw [reads_go hs hm] at hb
        rcases List.mem_cons.mp hb with rfl | hb
        · exact absurd ha hp
        obtain ⟨mem',hagree,k,hk⟩ := ih hb
        refine ⟨mem',hagree,k + 1,fun he => hk ?_⟩
        have ha' := hagree a ha
        rw [scan_go hs hm,scan_go hs (ha' ▸ hm)] at he
        exact (List.cons.inj he).2
      · have hagree : ∀ v c, Public c → Function.update mem a v c = mem c := by
          intro v c hc
          refine Function.update_of_ne ?_ v mem
          rintro rfl
          exact ha hc
        by_cases hm : mem a = stop
        · refine ⟨Function.update mem a other,hagree other,1,fun he => ?_⟩
          have hv : Function.update mem a other a ≠ stop := by rwa [Function.update_self]
          rw [scan_go hs hv,scan_stop hs hm] at he
          exact absurd he (List.cons_ne_nil _ _)
        · refine ⟨Function.update mem a stop,hagree stop,1,fun he => ?_⟩
          rw [scan_stop hs (Function.update_self _ _ _),scan_go hs hm] at he
          exact absurd he.symm (List.cons_ne_nil _ _)

/-- Output and secrets are apart exactly when only public locations are read. -/
theorem scan_secure_iff (Public : β → Prop) {other : υ} (hother : other ≠ stop) (s : α) :
    (∀ mem' : β → υ, (∀ c, Public c → mem' c = mem c) →
      ∀ n, (scan next loc stop mem' n s).1 = (scan next loc stop mem n s).1) ↔
    ∀ n, ∀ b ∈ reads next loc stop mem n s, Public b := by
  constructor
  · intro h n b hb
    by_contra hp
    obtain ⟨mem',hagree,k,hk⟩ := scan_differs next loc stop mem hother hb hp
    exact hk (h mem' hagree k)
  · intro h mem' hagree n
    rw [scan_congr next loc stop mem fun b hb => hagree b (h n b hb)]

end Secrets

end StringScan

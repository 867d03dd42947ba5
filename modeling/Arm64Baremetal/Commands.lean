import Arm64Baremetal.Runs

/-!
Commands over any state, where each action and each test is one step, and what a command comes
to when nothing comes between its steps.
-/

set_option autoImplicit false

namespace Commands
open Runs

/-- `loop g p c` is `while (g, p) c`: `g` goes before each test. -/
inductive Cmd (σ : Type*) where
  | skip
  | act (f : σ → σ)
  | seq (c d : Cmd σ)
  | ite (p : σ → Bool) (c d : Cmd σ)
  | loop (g : Cmd σ) (p : σ → Bool) (c : Cmd σ)

variable {σ : Type*} {c d g : Cmd σ} {f a b : σ → σ} {p : σ → Bool} {s s' : σ}

namespace Cmd

/-- `none` when the command has ended. -/
def step : Cmd σ → σ → Option (Cmd σ × σ)
  | .skip,_ => none
  | .act f,s => some (.skip,f s)
  | .seq c d,s =>
    match c.step s with
    | none => some (d,s)
    | some (c',s') => some (.seq c' d,s')
  | .ite p c d,s => some (if p s then c else d,s)
  | .loop g p c,s => some (.seq g (.ite p (.seq c (.loop g p c)) .skip),s)

def next (x : Cmd σ × σ) : Cmd σ × σ := (x.1.step x.2).getD x

def ofList : List (Cmd σ) → Cmd σ
  | [] => .skip
  | c :: cs => .seq c (ofList cs)

theorem step_eq_none : c.step s = none ↔ c = .skip := by
  cases c with
  | skip => exact iff_of_true rfl rfl
  | act f => exact iff_of_false nofun nofun
  | seq c d => exact iff_of_false (by rw [step]; split <;> nofun) nofun
  | ite p c d => exact iff_of_false nofun nofun
  | loop g p c => exact iff_of_false nofun nofun

theorem next_of_step {c' : Cmd σ} {t : σ} (h : c.step s = some (c',t)) : next (c,s) = (c',t) := by
  simp only [next,h,Option.getD_some]

end Cmd

/-- The steps of the first command, taken by themselves, come to the second. -/
def Upto (x y : Cmd σ × σ) : Prop := Leads Cmd.next x y

def EndsIn (n : Nat) (c : Cmd σ) (s s' : σ) : Prop := Cmd.next^[n] (c,s) = (.skip,s')

def Ends (c : Cmd σ) (s s' : σ) : Prop := ∃ n, EndsIn n c s s'

section Ends

theorem endsIn_skip {n : Nat} : EndsIn n .skip s s' ↔ s' = s := by
  have hfix : Cmd.next^[n] (.skip,s) = (.skip,s) := Function.iterate_fixed rfl n
  rw [EndsIn,hfix]
  exact ⟨fun h => (Prod.mk.inj h).2.symm,fun h => h ▸ rfl⟩

theorem ends_skip : Ends .skip s s' ↔ s' = s :=
  ⟨fun ⟨_,h⟩ => endsIn_skip.mp h,fun h => ⟨0,endsIn_skip.mpr h⟩⟩

theorem endsIn_of_step {n : Nat} {c' : Cmd σ} {t : σ} (h : c.step s = some (c',t)) :
    EndsIn n c s s' ↔ ∃ m, n = m + 1 ∧ EndsIn m c' t s' := by
  cases n with
  | zero =>
    refine iff_of_false (fun hend => ?_) fun ⟨_,hm,_⟩ => nomatch hm
    obtain ⟨rfl,-⟩ := Prod.mk.inj hend
    exact nomatch h
  | succ n =>
    rw [EndsIn,Function.iterate_succ_apply,Cmd.next_of_step h]
    exact ⟨fun hend => ⟨n,rfl,hend⟩,fun ⟨m,hm,hend⟩ => Nat.succ.inj hm ▸ hend⟩

theorem ends_of_step {c' : Cmd σ} {t : σ} (h : c.step s = some (c',t)) :
    Ends c s s' ↔ Ends c' t s' := by
  simp only [Ends,endsIn_of_step h]
  exact ⟨fun ⟨_,m,_,hm⟩ => ⟨m,hm⟩,fun ⟨m,hm⟩ => ⟨_,m,rfl,hm⟩⟩

theorem ends_act : Ends (.act f) s s' ↔ s' = f s := by
  rw [ends_of_step rfl,ends_skip]

theorem ends_ite : Ends (.ite p c d) s s' ↔ Ends (if p s then c else d) s s' := ends_of_step rfl

theorem step_seq_skip : (Cmd.seq .skip d).step s = some (d,s) := rfl

theorem step_seq {c' : Cmd σ} {t : σ} (h : c.step s = some (c',t)) :
    (Cmd.seq c d).step s = some (.seq c' d,t) := by
  simp only [Cmd.step,h]

/-- What is left of the steps once the first command is done. -/
theorem endsIn_seq {n : Nat} (h : EndsIn n (.seq c d) s s') :
    ∃ t m, Ends c s t ∧ m < n ∧ EndsIn m d t s' := by
  induction n generalizing c s with
  | zero => exact nomatch (Prod.mk.inj h).1
  | succ n ih =>
    cases hc : c.step s with
    | none =>
      obtain rfl := Cmd.step_eq_none.mp hc
      obtain ⟨m,hm,hd⟩ := (endsIn_of_step step_seq_skip).mp h
      exact ⟨s,m,ends_skip.mpr rfl,by omega,hd⟩
    | some x =>
      obtain ⟨m,hm,hrest⟩ := (endsIn_of_step (step_seq hc)).mp h
      obtain rfl := Nat.succ.inj hm
      obtain ⟨t,k,hend,hk,hd⟩ := ih hrest
      exact ⟨t,k,(ends_of_step hc).mpr hend,by omega,hd⟩

theorem ends_seq_of {t : σ} (hc : Ends c s t) (hd : Ends d t s') : Ends (.seq c d) s s' := by
  obtain ⟨n,hn⟩ := hc
  induction n generalizing c s with
  | zero =>
    obtain ⟨rfl,rfl⟩ := Prod.mk.inj hn
    exact (ends_of_step step_seq_skip).mpr hd
  | succ n ih =>
    cases hc : c.step s with
    | none =>
      obtain rfl := Cmd.step_eq_none.mp hc
      obtain rfl := endsIn_skip.mp hn
      exact (ends_of_step step_seq_skip).mpr hd
    | some x =>
      obtain ⟨m,hm,hrest⟩ := (endsIn_of_step hc).mp hn
      exact (ends_of_step (step_seq hc)).mpr (ih (Nat.succ.inj hm ▸ hrest))

theorem ends_seq : Ends (.seq c d) s s' ↔ ∃ t, Ends c s t ∧ Ends d t s' := by
  constructor
  · rintro ⟨n,h⟩
    obtain ⟨t,m,hc,_,hd⟩ := endsIn_seq h
    exact ⟨t,hc,m,hd⟩
  · exact fun ⟨t,hc,hd⟩ => ends_seq_of hc hd

theorem Upto.ends (h : Upto (c,s) (.skip,s')) : Ends c s s' := h

theorem Ends.unique {t : σ} (h : Ends c s s') (h' : Ends c s t) : s' = t :=
  (Prod.mk.inj (Leads.halt_unique h h' rfl rfl)).2

theorem Ends.of_eq {t : σ} (h : Ends c s t) (ht : t = s') : Ends c s s' := ht ▸ h

theorem Ends.skip : Ends .skip s s := ends_skip.mpr rfl

theorem Ends.act : Ends (.act f) s (f s) := ends_act.mpr rfl

theorem Ends.pos (hp : p s = true) (h : Ends c s s') : Ends (.ite p c d) s s' :=
  ends_ite.mpr (by rwa [if_pos hp])

theorem Ends.neg (hp : p s = false) (h : Ends d s s') : Ends (.ite p c d) s s' :=
  ends_ite.mpr (by rwa [if_neg (Bool.eq_false_iff.mp hp)])

theorem Ends.nil : Ends (.ofList []) s s := .skip

theorem Ends.cons {cs : List (Cmd σ)} {t : σ} (h : Ends c s t) (hs : Ends (.ofList cs) t s') :
    Ends (.ofList (c :: cs)) s s' := ends_seq_of h hs

theorem ends_cons {cs : List (Cmd σ)} :
    Ends (.ofList (c :: cs)) s s' ↔ ∃ t, Ends c s t ∧ Ends (.ofList cs) t s' := ends_seq

theorem Ends.loop_pos {t u : σ} (hg : Ends g s t) (hp : p t = true) (hc : Ends c t u)
    (h : Ends (.loop g p c) u s') : Ends (.loop g p c) s s' :=
  (ends_of_step rfl).mpr (ends_seq_of hg (.pos hp (ends_seq_of hc h)))

theorem Ends.loop_neg (hg : Ends g s s') (hp : p s' = false) : Ends (.loop g p c) s s' :=
  (ends_of_step rfl).mpr (ends_seq_of hg (.neg hp .skip))

end Ends

/-- The command always ends, and computes `f`. -/
def Does (c : Cmd σ) (f : σ → σ) : Prop := ∀ s, Ends c s (f s)

section Does

theorem Does.iff (h : Does c f) : Ends c s s' ↔ s' = f s :=
  ⟨fun hs => hs.unique (h s),fun hs => hs ▸ h s⟩

def turn (a : σ → σ) (p : σ → Bool) (b : σ → σ) (s : σ) : Option σ :=
  if p (a s) then some (b (a s)) else none

theorem whileSome_turn {n : Nat} {t : σ} : whileSome (turn a p b) (n + 1) s = some t ↔
    if p (a s) then whileSome (turn a p b) n (b (a s)) = some t else t = s := by
  by_cases hp : p (a s)
  · have hturn : turn a p b s = some (b (a s)) := if_pos hp
    simp only [whileSome,hturn,if_pos hp]
  · have hturn : turn a p b s = none := if_neg hp
    simp only [whileSome,hturn,if_neg hp,Option.some.injEq]
    exact eq_comm

theorem ends_loop (hg : Does g a) (hc : Does c b) :
    Ends (.loop g p c) s s' ↔ ∃ n t, whileSome (turn a p b) n s = some t ∧ s' = a t := by
  constructor
  · rintro ⟨n,h⟩
    induction n using Nat.strongRecOn generalizing s with
    | ind n ih =>
      obtain ⟨k,rfl,hguard⟩ := (endsIn_of_step rfl).mp h
      obtain ⟨t,m,hgs,hm,htest⟩ := endsIn_seq hguard
      obtain rfl := hg.iff.mp hgs
      obtain ⟨j,rfl,h⟩ := (endsIn_of_step rfl).mp htest
      by_cases hp : p (a s)
      · rw [if_pos hp] at h
        obtain ⟨u,i,hcu,hi,h⟩ := endsIn_seq h
        obtain rfl := hc.iff.mp hcu
        obtain ⟨l,t,hl,hs'⟩ := ih i (by omega) h
        exact ⟨l + 1,t,whileSome_turn.mpr (by rwa [if_pos hp]),hs'⟩
      · rw [if_neg hp] at h
        exact ⟨1,s,whileSome_turn.mpr (by rw [if_neg hp]),endsIn_skip.mp h⟩
  · rintro ⟨n,t,hn,rfl⟩
    induction n generalizing s with
    | zero => contradiction
    | succ n ih =>
      have hn := whileSome_turn.mp hn
      by_cases hp : p (a s)
      · rw [if_pos hp] at hn
        exact .loop_pos (hg s) hp (hc _) (ih hn)
      · rw [if_neg hp] at hn
        subst hn
        exact .loop_neg (hg t) (Bool.eq_false_iff.mpr hp)

end Does

section Chain
variable {κ : Type*} {R : κ → σ → σ → Prop}

/-- Calls one after the other, each of which takes the state where its relation says. -/
inductive Chain (R : κ → σ → σ → Prop) : List κ → σ → σ → Prop
  | nil (s : σ) : Chain R [] s s
  | snoc {ks : List κ} {k : κ} {s t t' : σ} (before : Chain R ks s t) (last : R k t t') :
    Chain R (ks ++ [k]) s t'

/-- With an invariant that each call keeps, a weaker relation. -/
theorem Chain.imp {R' : κ → σ → σ → Prop} {I : σ → Prop} {ks : List κ}
    (hR : ∀ k s t, I s → R k s t → R' k s t ∧ I t) (h : Chain R ks s s') (hs : I s) :
    Chain R' ks s s' ∧ I s' := by
  induction h with
  | nil s => exact ⟨.nil s,hs⟩
  | snoc before last ih =>
    obtain ⟨hbefore,ht⟩ := ih hs
    obtain ⟨hlast,ht'⟩ := hR _ _ _ ht last
    exact ⟨.snoc hbefore hlast,ht'⟩

end Chain

end Commands

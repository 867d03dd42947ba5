import Mathlib.Data.List.Induction
import Mathlib.Logic.Function.Basic
import Mathlib.Logic.Function.Iterate

/-!
Runs of a deterministic machine that is driven by a list of labels, where everything
the environment chooses is part of the label, and loops whose body says when it
stops.
-/

set_option autoImplicit false

namespace Runs

variable {σ ε : Type*}

/-- The state after the labels of a list, in order. -/
def exec (step : σ → ε → σ) (s : σ) : List ε → σ
  | [] => s
  | e :: es => exec step (step s e) es

@[simp] theorem exec_nil (step : σ → ε → σ) (s : σ) : exec step s [] = s := rfl

@[simp] theorem exec_cons (step : σ → ε → σ) (s : σ) (e : ε) (es : List ε) :
    exec step s (e :: es) = exec step (step s e) es := rfl

theorem exec_append (step : σ → ε → σ) (s : σ) (es es' : List ε) :
    exec step s (es ++ es') = exec step (exec step s es) es' := by
  induction es generalizing s with
  | nil => rfl
  | cons e es ih => exact ih (step s e)

@[simp] theorem exec_snoc (step : σ → ε → σ) (s : σ) (es : List ε) (e : ε) :
    exec step s (es ++ [e]) = step (exec step s es) e := by
  rw [exec_append]; rfl

/-- Every label of the run satisfies `P` in the state it is taken in. -/
def Along (step : σ → ε → σ) (P : σ → ε → Prop) : σ → List ε → Prop
  | _, [] => True
  | s, e :: es => P s e ∧ Along step P (step s e) es

instance (step : σ → ε → σ) (P : σ → ε → Prop) [∀ s e, Decidable (P s e)] :
    (s : σ) → (es : List ε) → Decidable (Along step P s es)
  | _, [] => inferInstanceAs (Decidable True)
  | s, e :: es =>
    have := instDecidableAlong step P (step s e) es
    inferInstanceAs (Decidable (_ ∧ _))

@[simp] theorem along_nil (step : σ → ε → σ) (P : σ → ε → Prop) (s : σ) :
    Along step P s [] := trivial

@[simp] theorem along_cons (step : σ → ε → σ) (P : σ → ε → Prop) (s : σ) (e : ε)
    (es : List ε) : Along step P s (e :: es) ↔ P s e ∧ Along step P (step s e) es := Iff.rfl

theorem along_append (step : σ → ε → σ) (P : σ → ε → Prop) (s : σ) (es es' : List ε) :
    Along step P s (es ++ es') ↔
      Along step P s es ∧ Along step P (exec step s es) es' := by
  induction es generalizing s with
  | nil => simp
  | cons e es ih => simp [ih,and_assoc]

theorem along_true (step : σ → ε → σ) (s : σ) (es : List ε) :
    Along step (fun _ _ => True) s es := by
  induction es generalizing s with
  | nil => trivial
  | cons e es ih => exact ⟨trivial,ih (step s e)⟩

theorem Along.imp {step : σ → ε → σ} {P Q : σ → ε → Prop} (h : ∀ s e, P s e → Q s e)
    {s : σ} {es : List ε} (hp : Along step P s es) : Along step Q s es := by
  induction es generalizing s with
  | nil => trivial
  | cons e es ih => exact ⟨h s e hp.1,ih hp.2⟩

theorem Along.and {step : σ → ε → σ} {P Q : σ → ε → Prop} {s : σ} {es : List ε}
    (hp : Along step P s es) (hq : Along step Q s es) :
    Along step (fun s e => P s e ∧ Q s e) s es := by
  induction es generalizing s with
  | nil => trivial
  | cons e es ih => exact ⟨⟨hp.1,hq.1⟩,ih hp.2 hq.2⟩

theorem along_of_mem (step : σ → ε → σ) {P : ε → Prop} (s : σ) {es : List ε} (h : ∀ e ∈ es, P e) :
    Along step (fun _ e => P e) s es := by
  induction es generalizing s with
  | nil => trivial
  | cons e es ih =>
    exact ⟨h e List.mem_cons_self,ih (step s e) fun e' he' => h e' (List.mem_cons_of_mem e he')⟩

/-- The invariant rule: what one guarded step keeps, a guarded run keeps. -/
theorem exec_invariant {step : σ → ε → σ} {P : σ → ε → Prop} {I : σ → Prop}
    (hstep : ∀ s e, I s → P s e → I (step s e)) {s : σ} {es : List ε}
    (hs : I s) (hp : Along step P s es) : I (exec step s es) := by
  induction es generalizing s with
  | nil => exact hs
  | cons e es ih => exact ih (hstep s e hs hp.1) hp.2

theorem exec_keeps {step : σ → ε → σ} {I : σ → Prop} (hstep : ∀ s e, I s → I (step s e)) {s : σ}
    (hs : I s) (es : List ε) : I (exec step s es) := by
  induction es generalizing s with
  | nil => exact hs
  | cons e es ih => exact ih (hstep s e hs)

theorem countP_cons_toNat (p : ε → Bool) (e : ε) (es : List ε) :
    (e :: es).countP p = es.countP p + (p e).toNat := by
  rw [List.countP_cons]
  cases p e <;> rfl

/-- The invariant rule for invariants that also speak about the labels so far. -/
theorem exec_history {step : σ → ε → σ} {P : σ → ε → Prop} {I : List ε → σ → Prop}
    {s : σ} (hs : I [] s)
    (hstep : ∀ pre e, I pre (exec step s pre) → P (exec step s pre) e →
      I (pre ++ [e]) (step (exec step s pre) e))
    {es : List ε} (hp : Along step P s es) : I es (exec step s es) := by
  induction es using List.reverseRecOn with
  | nil => exact hs
  | append_singleton es e ih =>
    rw [along_append] at hp
    rw [exec_snoc]
    exact hstep es e (ih hp.1) hp.2.1

/-- Two conditions on the steps of a run that agree wherever the run has kept the invariant,
which the first of them makes the steps keep. -/
theorem along_iff {step : σ → ε → σ} {L P Q : σ → ε → Prop} {I : σ → Prop}
    (hinv : ∀ s e, I s → L s e → P s e → I (step s e))
    (hiff : ∀ s e, I s → L s e → (P s e ↔ Q s e)) {s : σ} {es : List ε} (hs : I s)
    (hl : Along step L s es) : Along step P s es ↔ Along step Q s es := by
  induction es generalizing s with
  | nil => exact Iff.rfl
  | cons e es ih =>
    rw [along_cons,along_cons,← hiff s e hs hl.1]
    exact and_congr_right fun hp => ih (hinv s e hs hl.1 hp) hl.2

theorem Along.of_invariant {step : σ → ε → σ} {P Q : σ → ε → Prop} {I : σ → Prop}
    (hinv : ∀ s e, I s → P s e → I (step s e)) (hpq : ∀ s e, I s → P s e → Q s e) {s : σ}
    {es : List ε} (hs : I s) (hp : Along step P s es) : Along step Q s es := by
  induction es generalizing s with
  | nil => trivial
  | cons e es ih => exact ⟨hpq s e hs hp.1,ih (hinv s e hs hp.1) hp.2⟩

/-- One step of the run satisfied `A`, and none satisfied `B` after it. -/
def Since (step : σ → ε → σ) (A B : σ → ε → Prop) (s : σ) (es : List ε) : Prop :=
  ∃ pre e post, es = pre ++ e :: post ∧ A (exec step s pre) e ∧
    Along step (fun s e => ¬ B s e) (exec step s (pre ++ [e])) post

theorem not_since_nil (step : σ → ε → σ) (A B : σ → ε → Prop) (s : σ) :
    ¬ Since step A B s [] := by
  rintro ⟨pre,e,post,h,_⟩
  cases pre <;> cases h

theorem since_snoc (step : σ → ε → σ) (A B : σ → ε → Prop) (s : σ) (es : List ε) (e : ε) :
    Since step A B s (es ++ [e]) ↔
      A (exec step s es) e ∨ (Since step A B s es ∧ ¬ B (exec step s es) e) := by
  constructor
  · rintro ⟨pre,a,post,heq,ha,hpost⟩
    rcases List.eq_nil_or_concat post with rfl | ⟨post,b,rfl⟩
    · obtain ⟨rfl,he⟩ := List.append_inj' heq rfl
      obtain rfl := List.singleton_inj.mp he
      exact .inl ha
    · have hsplit : es ++ [e] = (pre ++ a :: post) ++ [b] := by
        rw [heq,List.concat_eq_append,List.append_assoc,List.cons_append]
      obtain ⟨rfl,he⟩ := List.append_inj' hsplit rfl
      obtain rfl := List.singleton_inj.mp he
      rw [List.concat_eq_append,along_append] at hpost
      refine .inr ⟨⟨pre,a,post,rfl,ha,hpost.1⟩,?_⟩
      have hb := hpost.2.1
      rwa [← exec_append,List.append_assoc,List.singleton_append] at hb
  · rintro (ha | ⟨⟨pre,a,post,rfl,ha,hpost⟩,hb⟩)
    · exact ⟨es,e,[],rfl,ha,trivial⟩
    · refine ⟨pre,a,post ++ [e],List.append_assoc _ _ _,ha,?_⟩
      rw [along_append,← exec_append,List.append_assoc,List.singleton_append]
      exact ⟨hpost,hb,trivial⟩

/-- `while ((s = body(s)) goes on)`, cut off after `n` tests. -/
def whileSome (body : σ → Option σ) : Nat → σ → Option σ
  | 0, _ => none
  | n + 1, s =>
    match body s with
    | none => some s
    | some s' => whileSome body n s'

/-- A loop that uses up a list ends, if it is allowed one test more than the list is long. -/
theorem whileSome_list {α : Type*} {body : σ → Option σ} {I : List α → σ → Prop}
    (hnil : ∀ s, I [] s → body s = none)
    (hcons : ∀ a xs s, I (a :: xs) s → ∃ s', body s = some s' ∧ I xs s')
    {xs : List α} {n : Nat} {s : σ} (h : I xs s) (hn : xs.length < n) :
    ∃ s', whileSome body n s = some s' ∧ I [] s' := by
  induction xs generalizing n s with
  | nil =>
    obtain ⟨m,rfl⟩ := Nat.exists_eq_add_of_lt hn
    refine ⟨s,?_,h⟩
    simp only [whileSome,hnil s h]
  | cons a xs ih =>
    obtain ⟨s',hs,h'⟩ := hcons a xs s h
    cases n with
    | zero => simp at hn
    | succ n =>
      obtain ⟨t,ht,hi⟩ := ih h' (by simpa using hn)
      exact ⟨t,by simp only [whileSome,hs,ht],hi⟩

theorem whileSome_invariant {body : σ → Option σ} {I : σ → Prop}
    (hbody : ∀ s s', body s = some s' → I s → I s') {n : Nat} {s s' : σ}
    (h : whileSome body n s = some s') (hs : I s) : I s' := by
  induction n generalizing s with
  | zero => contradiction
  | succ n ih =>
    unfold whileSome at h
    cases hb : body s with
    | none =>
      simp only [hb,Option.some.injEq] at h
      exact h ▸ hs
    | some t =>
      simp only [hb] at h
      exact ih h (hbody s t hb hs)

theorem whileSome_done {body : σ → Option σ} {n : Nat} {s s' : σ}
    (h : whileSome body n s = some s') : body s' = none := by
  induction n generalizing s with
  | zero => contradiction
  | succ n ih =>
    unfold whileSome at h
    cases hb : body s with
    | none =>
      simp only [hb,Option.some.injEq] at h
      exact h ▸ hb
    | some t =>
      simp only [hb] at h
      exact ih h

/-- A loop whose states are a view of those of another makes its turns with it. -/
theorem whileSome_view {τ : Type*} {body : σ → Option σ} {body' : τ → Option τ} {f : σ → τ}
    (hf : ∀ s, body' (f s) = (body s).map f) (n : Nat) (s : σ) :
    whileSome body' n (f s) = (whileSome body n s).map f := by
  induction n generalizing s with
  | zero => rfl
  | succ n ih =>
    unfold whileSome
    rw [hf s]
    cases body s with
    | none => rfl
    | some t => exact ih t

theorem whileSome_map {body : σ → Option σ} {f : σ → σ} (hf : ∀ s, body (f s) = (body s).map f)
    (n : Nat) (s : σ) : whileSome body n (f s) = (whileSome body n s).map f :=
  whileSome_view hf n s

/-- The machine without labels comes from `s` to `s'`. -/
def Leads (step : σ → σ) (s s' : σ) : Prop := ∃ n, step^[n] s = s'

theorem Leads.refl (step : σ → σ) (s : σ) : Leads step s s := ⟨0,rfl⟩

theorem Leads.trans {step : σ → σ} {s s' s'' : σ} (h : Leads step s s') (h' : Leads step s' s'') :
    Leads step s s'' := by
  obtain ⟨n,rfl⟩ := h
  obtain ⟨n',rfl⟩ := h'
  exact ⟨n' + n,Function.iterate_add_apply step n' n s⟩

theorem Leads.head {step : σ → σ} {s s' s'' : σ} (h : step s = s') (h' : Leads step s' s'') :
    Leads step s s'' := Leads.trans ⟨1,h⟩ h'

theorem Leads.invariant {step : σ → σ} {I : σ → Prop} (hstep : ∀ s, I s → I (step s)) {s s' : σ}
    (h : Leads step s s') (hs : I s) : I s' := by
  obtain ⟨n,rfl⟩ := h
  exact Function.Iterate.rec I hs hstep n

theorem Leads.halt_unique {step : σ → σ} {s s' s'' : σ} (h : Leads step s s')
    (h' : Leads step s s'') (hs' : step s' = s') (hs'' : step s'' = s'') : s' = s'' := by
  obtain ⟨n,rfl⟩ := h
  obtain ⟨n',rfl⟩ := h'
  have hn : step^[n' + n] s = step^[n] s := by
    rw [Function.iterate_add_apply,Function.iterate_fixed hs']
  have hn' : step^[n + n'] s = step^[n'] s := by
    rw [Function.iterate_add_apply,Function.iterate_fixed hs'']
  rw [← hn,← hn',Nat.add_comm]

end Runs

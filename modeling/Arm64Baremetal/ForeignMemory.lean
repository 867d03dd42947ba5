import Mathlib.Data.List.Basic
import Mathlib.Logic.Function.Basic

/-!
Programs on a memory that someone else may write between any two of their steps, and the
same programs on a memory of their own.
-/

set_option autoImplicit false

namespace ForeignMemory

/-- A program: its reads and writes, and actions that do not touch the memory. -/
inductive Prog {L : Type} (V : L → Type) (A α : Type) where
  | done (a : α)
  | read (l : L) (next : V l → Prog V A α)
  | write (l : L) (v : V l) (next : Prog V A α)
  | act (e : A) (next : Prog V A α)

inductive Event {L : Type} (V : L → Type) (A : Type) where
  | read (l : L) (v : V l)
  | write (l : L) (v : V l)
  | act (e : A)

variable {L : Type} {V : L → Type} {A α β : Type}

abbrev Mem (V : L → Type) : Type := (l : L) → V l

/-- What each read returns, by its number and its location. -/
abbrev Answers (V : L → Type) : Type := Nat → Mem V

namespace Prog

def bind : Prog V A α → (α → Prog V A β) → Prog V A β
  | .done a,f => f a
  | .read l next,f => .read l fun v => (next v).bind f
  | .write l v next,f => .write l v (next.bind f)
  | .act e next,f => .act e (next.bind f)

instance : Monad (Prog V A) where
  pure := .done
  bind := bind

def get (l : L) : Prog V A (V l) := .read l .done
def set (l : L) (v : V l) : Prog V A Unit := .write l v (.done ())
def note (e : A) : Prog V A Unit := .act e (.done ())

end Prog

structure Outcome {L : Type} (V : L → Type) (A α : Type) where
  value : α
  events : List (Event V A)
  rest : Answers V

/-- A run in which the reads return whatever `s` says, in order. -/
def Prog.exec : Prog V A α → Answers V → Outcome V A α
  | .done a,s => ⟨a,[],s⟩
  | .read l next,s =>
    let o := (next (s 0 l)).exec fun n => s (n + 1)
    { o with events := .read l (s 0 l) :: o.events }
  | .write l v next,s =>
    let o := next.exec s
    { o with events := .write l v :: o.events }
  | .act e next,s =>
    let o := next.exec s
    { o with events := .act e :: o.events }

structure Result {L : Type} (V : L → Type) (A α : Type) where
  value : α
  mem : Mem V
  events : List (Event V A)

def Prog.run [DecidableEq L] : Prog V A α → Mem V → Result V A α
  | .done a,m => ⟨a,m,[]⟩
  | .read l next,m =>
    let r := (next (m l)).run m
    { r with events := .read l (m l) :: r.events }
  | .write l v next,m =>
    let r := next.run (Function.update m l v)
    { r with events := .write l v :: r.events }
  | .act e next,m =>
    let r := next.run m
    { r with events := .act e :: r.events }

section Exec

theorem exec_bind (p : Prog V A α) (f : α → Prog V A β) (s : Answers V) :
    (p >>= f).exec s =
      let o := p.exec s
      let o' := (f o.value).exec o.rest
      { o' with events := o.events ++ o'.events } := by
  change (p.bind f).exec s = _
  induction p generalizing s with
  | done a => rfl
  | read l next ih => simp only [Prog.bind,Prog.exec,ih,List.cons_append]
  | write l v next ih => simp only [Prog.bind,Prog.exec,ih,List.cons_append]
  | act e next ih => simp only [Prog.bind,Prog.exec,ih,List.cons_append]

theorem exec_get (l : L) (f : V l → Prog V A β) (s : Answers V) : (Prog.get l >>= f).exec s =
    let o := (f (s 0 l)).exec fun n => s (n + 1)
    { o with events := .read l (s 0 l) :: o.events } := rfl

end Exec

section Snapshot

/-- No location is read twice, nor one of those that `seen` names. -/
def Prog.ReadsOnce : List L → Prog V A α → Prop
  | _,.done _ => True
  | seen,.read l next => l ∉ seen ∧ ∀ v, (next v).ReadsOnce (l :: seen)
  | seen,.write _ _ next => next.ReadsOnce seen
  | seen,.act _ next => next.ReadsOnce seen

theorem readsOnce_get (seen : List L) (l : L) (f : V l → Prog V A β) :
    (Prog.get l >>= f).ReadsOnce seen ↔ l ∉ seen ∧ ∀ v, (f v).ReadsOnce (l :: seen) := Iff.rfl

variable [DecidableEq L]

/-- The snapshot of a run: its reads might as well have been of a memory that does not change.
The induction is on the program, with the locations that the snapshot already fixes. -/
theorem exec_snapshot {p : Prog V A α} {seen : List L} (h : p.ReadsOnce seen) (s : Answers V)
    (m : Mem V) : ∃ m' : Mem V, (∀ l ∈ seen, m' l = m l) ∧
      (p.exec fun _ => m').events = (p.exec s).events ∧
      ∀ l v, .read l v ∈ (p.exec s).events → v = m' l := by
  induction p generalizing seen s m with
  | done a => exact ⟨m,fun _ _ => rfl,rfl,nofun⟩
  | read l next ih =>
    obtain ⟨hl,hnext⟩ := h
    obtain ⟨m',hseen,hevents,hreads⟩ := ih (s 0 l) (hnext (s 0 l)) (fun n => s (n + 1))
      (Function.update m l (s 0 l))
    have hm : m' l = s 0 l := by
      rw [hseen l List.mem_cons_self,Function.update_self]
    refine ⟨m',fun l' hl' => ?_,?_,fun l' v hv => ?_⟩
    · have hne : l' ≠ l := fun he => hl (he ▸ hl')
      rw [hseen l' (List.mem_cons_of_mem l hl'),Function.update_of_ne hne]
    · simp only [Prog.exec,hm,hevents]
    · cases List.mem_cons.mp hv with
      | inl hnew => cases hnew; exact hm.symm
      | inr hold => exact hreads l' v hold
  | write l v next ih =>
    obtain ⟨m',hseen,hevents,hreads⟩ := ih h s m
    refine ⟨m',hseen,by simp only [Prog.exec,hevents],fun l' v' hv => ?_⟩
    exact hreads l' v' ((List.mem_cons.mp hv).resolve_left nofun)
  | act e next ih =>
    obtain ⟨m',hseen,hevents,hreads⟩ := ih h s m
    refine ⟨m',hseen,by simp only [Prog.exec,hevents],fun l' v' hv => ?_⟩
    exact hreads l' v' ((List.mem_cons.mp hv).resolve_left nofun)

end Snapshot

section Own
variable [DecidableEq L]

theorem run_bind (p : Prog V A α) (f : α → Prog V A β) (m : Mem V) :
    (p >>= f).run m =
      let r := p.run m
      let r' := (f r.value).run r.mem
      { r' with events := r.events ++ r'.events } := by
  change (p.bind f).run m = _
  induction p generalizing m with
  | done a => rfl
  | read l next ih => simp only [Prog.bind,Prog.run,ih,List.cons_append]
  | write l v next ih => simp only [Prog.bind,Prog.run,ih,List.cons_append]
  | act e next ih => simp only [Prog.bind,Prog.run,ih,List.cons_append]

theorem run_get (l : L) (f : V l → Prog V A β) (m : Mem V) : (Prog.get l >>= f).run m =
    let r := (f (m l)).run m
    { r with events := .read l (m l) :: r.events } := rfl

def Answers.after (s : Answers V) (m : Mem V) : Answers V
  | 0 => m
  | n + 1 => s n

theorem run_exec (p : Prog V A α) (m : Mem V) :
    ∃ s, (p.exec s).value = (p.run m).value ∧ (p.exec s).events = (p.run m).events := by
  induction p generalizing m with
  | done a => exact ⟨fun _ => m,rfl,rfl⟩
  | read l next ih =>
    obtain ⟨s,hv,he⟩ := ih (m l) m
    exact ⟨s.after m,hv,congrArg (List.cons (Event.read l (m l))) he⟩
  | write l v next ih =>
    obtain ⟨s,hv,he⟩ := ih (Function.update m l v)
    exact ⟨s,hv,congrArg (List.cons (Event.write l v)) he⟩
  | act e next ih =>
    obtain ⟨s,hv,he⟩ := ih m
    exact ⟨s,hv,congrArg (List.cons (Event.act e)) he⟩

end Own

end ForeignMemory

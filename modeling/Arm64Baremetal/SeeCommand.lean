import Arm64Baremetal.ForeignMemory
import Arm64Baremetal.SeeService

set_option autoImplicit false

namespace Arm64
open ForeignMemory (Prog Answers exec_bind exec_get exec_snapshot readsOnce_get run_exec)

/-- cmd_response_t -/
inductive CmdResponse where
  | empty | badId | wrongArgs | undefined | error | success
  deriving DecidableEq

/-- The fields of see_cmd_t. -/
inductive CmdField where
  | command
  | data (i : Fin 4)
  | response
  | result (i : Fin 4)
  deriving DecidableEq

@[reducible] def CmdField.Value : CmdField → Type
  | .command => BitVec 32
  | .data _ | .result _ => Word
  | .response => CmdResponse

def CmdField.IsOutput : CmdField → Prop
  | .response | .result _ => True
  | .command | .data _ => False

inductive SeeCmdFun where
  | version | wrapKey | unwrapKey
  deriving DecidableEq

/-- What see_cmd_invoke does besides reads and writes of the buffer: the call of a handler, of
the cipher, and the barrier. -/
inductive CmdAct where
  | call (f : SeeCmdFun)
  | wrapKey (plainKey : Word)
  | unwrapKey (wrappedKey : Word × Word)
  | dsbIshst
  deriving DecidableEq

abbrev CmdProg : Type → Type := Prog CmdField.Value CmdAct
abbrev CmdEvent : Type := ForeignMemory.Event CmdField.Value CmdAct

/-- `*cmd` -/
abbrev SeeCmd : Type := ForeignMemory.Mem CmdField.Value

section Source
variable (k : Crypto)

/-- A call of see_wrap_key or see_unwrap_key. -/
def callWrapKey (plainKey : Word) : CmdProg (Word × Word) := do
  .note (.wrapKey plainKey)
  return k.wrapKey plainKey

def callUnwrapKey (wrappedKey : Word × Word) : CmdProg Word := do
  .note (.unwrapKey wrappedKey)
  return k.unwrapKey wrappedKey

def seeCmdVersion : CmdProg Unit := do
  .set (.result 0) seeosVersion
  .set .response .success

def seeCmdWrapKey : CmdProg Unit := do
  let keyData ← .get (.data 0)
  if keyData = 0 then
    .set .response .wrongArgs
  else
    let keyBlob ← callWrapKey k keyData
    .set (.result 0) keyBlob.1
    .set (.result 1) keyBlob.2
    .set .response .success

def seeCmdUnwrapKey : CmdProg Unit := do
  let wrappedKey1 ← .get (.data 0)
  let wrappedKey2 ← .get (.data 1)
  if wrappedKey1 = 0 ∨ wrappedKey2 = 0 then
    .set .response .wrongArgs
  else
    .set (.result 0) (← callUnwrapKey k (wrappedKey1,wrappedKey2))
    .set .response .success

def SeeCmdFun.code : SeeCmdFun → CmdProg Unit
  | .version => seeCmdVersion
  | .wrapKey => seeCmdWrapKey k
  | .unwrapKey => seeCmdUnwrapKey k

structure SeeCmdEntry where
  commandId : BitVec 32
  seeCmdFun : SeeCmdFun

/-- SEE_CMD_VERSION, SEE_CMD_WRAP_KEY and SEE_CMD_UNWRAP_KEY -/
def SeeCmdFun.id : SeeCmdFun → BitVec 32
  | .version => 1
  | .wrapKey => 2
  | .unwrapKey => 3

def seeCmd : List SeeCmdEntry :=
  [⟨SeeCmdFun.version.id,.version⟩,⟨SeeCmdFun.wrapKey.id,.wrapKey⟩,
    ⟨SeeCmdFun.unwrapKey.id,.unwrapKey⟩]

/-- The loop of see_cmd_invoke: every turn reads the command again. -/
def invokeFrom : List SeeCmdEntry → CmdProg Unit
  | [] => pure ()
  | entry :: entries => do
    let command ← .get .command
    if command = entry.commandId then
      .note (.call entry.seeCmdFun)
      entry.seeCmdFun.code k
      .note .dsbIshst
    else invokeFrom entries

def seeCmdInvoke : CmdProg Unit := do
  .set .response .undefined
  invokeFrom k seeCmd

end Source

section Events

def written (t : List CmdEvent) : List CmdField := t.filterMap fun
  | .write l _ => some l
  | _ => none

def calls (t : List CmdEvent) : List SeeCmdFun := t.filterMap fun
  | .act (.call f) => some f
  | _ => none

def dataReads (t : List CmdEvent) : List (Fin 4 × Word) := t.filterMap fun
  | .read (.data i) v => some (i,v)
  | _ => none

def responses (t : List CmdEvent) : List CmdResponse := t.filterMap fun
  | .write .response r => some r
  | _ => none

def results (t : List CmdEvent) : List (Fin 4 × Word) := t.filterMap fun
  | .write (.result i) v => some (i,v)
  | _ => none

theorem read_of_dataReads {t : List CmdEvent} {i : Fin 4} {v : Word} (h : (i,v) ∈ dataReads t) :
    .read (.data i) v ∈ t := by
  obtain ⟨e,he,hf⟩ := List.mem_filterMap.mp h
  split at hf
  · cases hf
    exact he
  · exact nomatch hf

end Events

/-- The result words of a handler, for the data words it has read. -/
def SeeCmdFun.output (k : Crypto) : SeeCmdFun → (Fin 4 → Word) → List (Fin 4 × Word)
  | .version,_ => [(0,seeosVersion)]
  | .wrapKey,data =>
    if data 0 = 0 then [] else [(0,(k.wrapKey (data 0)).1),(1,(k.wrapKey (data 0)).2)]
  | .unwrapKey,data =>
    if data 0 = 0 ∨ data 1 = 0 then [] else [(0,k.unwrapKey (data 0,data 1))]

/-- What a run of see_cmd_invoke may do, whatever its reads return. -/
structure CmdRobust (k : Crypto) (t : List CmdEvent) : Prop where
  bounded : t.length ≤ 11
  oneHandler : (calls t).length ≤ 1
  writes : ∀ l ∈ written t, l.IsOutput
  wraps : ∀ x, .act (.wrapKey x) ∈ t → x ≠ 0 ∧ dataReads t = [(0,x)]
  unwraps : ∀ p, .act (.unwrapKey p) ∈ t →
    p.1 ≠ 0 ∧ p.2 ≠ 0 ∧ dataReads t = [(0,p.1),(1,p.2)]
  answers : ∃ r, (responses t).getLast? = some r ∧
    (r = .undefined ∨ r = .wrongArgs ∨ r = .success)
  snapshot : ∃ data : Fin 4 → Word, (∀ i v, (i,v) ∈ dataReads t → v = data i) ∧
    results t = (calls t).flatMap fun f => f.output k data

section Calls

def fillCmd (c : SeeCmd) (f : SeeCmdFun) (x y : Word) : SeeCmd :=
  let c : SeeCmd := Function.update c .command f.id
  let c : SeeCmd := Function.update c (.data 0) x
  Function.update c (.data 1) y

def issueCmd (k : Crypto) (c : SeeCmd) (f : SeeCmdFun) (x y : Word) : SeeCmd :=
  ((seeCmdInvoke k).run (fillCmd c f x y)).mem

/-- A key goes through SEE_CMD_WRAP_KEY and comes back from SEE_CMD_UNWRAP_KEY. -/
def SurvivesCommands (k : Crypto) (c : SeeCmd) (key y : Word) : Prop :=
  let wrapped := issueCmd k c .wrapKey key y
  let unwrapped := issueCmd k wrapped .unwrapKey (wrapped (.result 0)) (wrapped (.result 1))
  wrapped .response = .success ∧ unwrapped .response = .success ∧ unwrapped (.result 0) = key

def SeeCmdFun.functionId : SeeCmdFun → Word
  | .version => seeosVersion
  | .wrapKey => seeosWrapKey
  | .unwrapKey => seeosUnwrapKey

/-- The results of `smc_call(SMC_YIELD, &res, r1, r2, r3, 0, 0)` -/
def Reply.result (r : Reply) : Fin 4 → Word
  | 0 => r.r1
  | 1 => r.r2
  | 2 => r.r3
  | 3 => 0

/-- What the command writes as its results is what the SMC function returns. -/
def InterfacesAgree (k : Crypto) (f : SeeCmdFun) (c : SeeCmd) : Prop :=
  let r := (seeCmdInvoke k).run (Function.update c .command f.id)
  let reply := seeosServicer k ⟨f.functionId,c (.data 0),c (.data 1),c (.data 2)⟩
  r.mem .response = .success →
    ∀ i, .result i ∈ written r.events → r.mem (.result i) = reply.result i

end Calls

section Handlers
variable {k : Crypto} {s : Answers CmdField.Value}

theorem code_readsOnce (k : Crypto) (f : SeeCmdFun) : (f.code k).ReadsOnce [] := by
  cases f with
  | version => trivial
  | wrapKey =>
    refine (readsOnce_get _ _ _).mpr ⟨nofun,fun keyData => ?_⟩
    split <;> trivial
  | unwrapKey =>
    refine (readsOnce_get _ _ _).mpr ⟨nofun,fun wrappedKey1 => ?_⟩
    refine (readsOnce_get _ _ _).mpr ⟨by decide,fun wrappedKey2 => ?_⟩
    split <;> trivial

theorem seeCmdVersion_events : (seeCmdVersion.exec s).events =
    [.write (.result 0) seeosVersion,.write .response .success] := rfl

theorem seeCmdWrapKey_events (k : Crypto) (s : Answers CmdField.Value) :
    ((seeCmdWrapKey k).exec s).events =
      let x : Word := s 0 (.data 0)
      .read (.data 0) x :: if x = 0 then [.write .response .wrongArgs] else
        [.act (.wrapKey x),.write (.result 0) (k.wrapKey x).1,.write (.result 1) (k.wrapKey x).2,
          .write .response .success] := by
  simp only [seeCmdWrapKey,exec_get]
  split <;> rfl

theorem seeCmdUnwrapKey_events (k : Crypto) (s : Answers CmdField.Value) :
    ((seeCmdUnwrapKey k).exec s).events =
      let x : Word := s 0 (.data 0)
      let y : Word := s 1 (.data 1)
      .read (.data 0) x :: .read (.data 1) y ::
        if x = 0 ∨ y = 0 then [.write .response .wrongArgs] else
          [.act (.unwrapKey (x,y)),.write (.result 0) (k.unwrapKey (x,y)),
            .write .response .success] := by
  simp only [seeCmdUnwrapKey,exec_get]
  split <;> rfl

theorem code_results (k : Crypto) (f : SeeCmdFun) (c : SeeCmd) :
    results ((f.code k).exec fun _ => c).events = f.output k fun i => c (.data i) := by
  cases f with
  | version => rfl
  | wrapKey =>
    rw [SeeCmdFun.code,seeCmdWrapKey_events]
    dsimp only [SeeCmdFun.output]
    split <;> rfl
  | unwrapKey =>
    rw [SeeCmdFun.code,seeCmdUnwrapKey_events]
    dsimp only [SeeCmdFun.output]
    split <;> rfl

structure HandlerRobust (t : List CmdEvent) : Prop where
  bounded : t.length ≤ 5
  noHandler : calls t = []
  writes : ∀ l ∈ written t, l.IsOutput
  wraps : ∀ x, .act (.wrapKey x) ∈ t → x ≠ 0 ∧ dataReads t = [(0,x)]
  unwraps : ∀ p, .act (.unwrapKey p) ∈ t →
    p.1 ≠ 0 ∧ p.2 ≠ 0 ∧ dataReads t = [(0,p.1),(1,p.2)]
  answers : responses t = [.wrongArgs] ∨ responses t = [.success]

theorem code_robust (k : Crypto) (f : SeeCmdFun) (s : Answers CmdField.Value) :
    HandlerRobust ((f.code k).exec s).events := by
  cases f with
  | version =>
    rw [SeeCmdFun.code,seeCmdVersion_events]
    exact ⟨by simp,rfl,by simp [written,CmdField.IsOutput],by simp,by simp,.inr rfl⟩
  | wrapKey =>
    rw [SeeCmdFun.code,seeCmdWrapKey_events]
    dsimp only
    split
    · exact ⟨by simp,rfl,by simp [written,CmdField.IsOutput],by simp,by simp,.inl rfl⟩
    · rename_i hx
      refine ⟨by simp,rfl,by simp [written,CmdField.IsOutput],?_,by simp,.inr rfl⟩
      intro x h
      obtain rfl : x = s 0 (.data 0) := by simpa using h
      exact ⟨hx,rfl⟩
  | unwrapKey =>
    rw [SeeCmdFun.code,seeCmdUnwrapKey_events]
    dsimp only
    split
    · exact ⟨by simp,rfl,by simp [written,CmdField.IsOutput],by simp,by simp,.inl rfl⟩
    · rename_i hxy
      obtain ⟨hx,hy⟩ := not_or.mp hxy
      refine ⟨by simp,rfl,by simp [written,CmdField.IsOutput],by simp,?_,.inr rfl⟩
      intro p h
      obtain rfl : p = (s 0 (.data 0),s 1 (.data 1)) := by simpa using h
      exact ⟨hx,hy,rfl⟩

end Handlers

section Loop
variable {k : Crypto}

def Polls (e : CmdEvent) : Prop := ∃ v, e = .read .command v

/-- The loop ends without a command, or has called one handler after some reads of the id. -/
theorem invokeFrom_events (k : Crypto) (entries : List SeeCmdEntry)
    (s : Answers CmdField.Value) :
    ∃ polls : List CmdEvent, (∀ e ∈ polls, Polls e) ∧ polls.length ≤ entries.length ∧
      (((invokeFrom k entries).exec s).events = polls ∨
        ∃ f s', ((invokeFrom k entries).exec s).events =
          polls ++ .act (.call f) :: (((f.code k).exec s').events ++ [.act .dsbIshst])) := by
  induction entries generalizing s with
  | nil => exact ⟨[],nofun,Nat.le_refl 0,.inl rfl⟩
  | cons entry entries ih =>
    unfold invokeFrom
    simp only [exec_get]
    by_cases hc : s 0 .command = entry.commandId
    · simp only [if_pos hc]
      refine ⟨[.read .command (s 0 .command)],?_,?_,.inr ⟨entry.seeCmdFun,fun n => s (n + 1),?_⟩⟩
      · intro e he
        exact ⟨_,List.mem_singleton.mp he⟩
      · simp
      · simp only [exec_bind]
        rfl
    · simp only [if_neg hc]
      obtain ⟨polls,hpolls,hlen,hevents⟩ := ih fun n => s (n + 1)
      refine ⟨.read .command (s 0 .command) :: polls,?_,?_,?_⟩
      · intro e he
        cases List.mem_cons.mp he with
        | inl hnew => exact ⟨_,hnew⟩
        | inr hold => exact hpolls e hold
      · simpa using hlen
      · obtain h | ⟨f,s',h⟩ := hevents
        · exact .inl (by rw [h])
        · exact .inr ⟨f,s',by rw [h]; rfl⟩

end Loop

section Invoke
variable {polls : List CmdEvent}

theorem prelude_nothing (h : ∀ e ∈ polls, Polls e) (t : List CmdEvent) :
    let t' : List CmdEvent := .write .response .undefined :: (polls ++ t)
    written t' = .response :: written t ∧ calls t' = calls t ∧ dataReads t' = dataReads t ∧
      responses t' = .undefined :: responses t ∧ results t' = results t ∧
      ∀ a, .act a ∈ t' → .act a ∈ t := by
  intro t'
  have hpolls : ∀ {α : Type} (f : CmdEvent → Option α), (∀ v, f (.read .command v) = none) →
      polls.filterMap f = [] := by
    intro α f hf
    refine List.filterMap_eq_nil_iff.mpr fun e he => ?_
    obtain ⟨v,rfl⟩ := h e he
    exact hf v
  refine ⟨?_,?_,?_,?_,?_,fun a ha => ?_⟩
  · simp [t',written,hpolls]
  · simp [t',calls,hpolls]
  · simp [t',dataReads,hpolls]
  · simp [t',responses,hpolls]
  · simp [t',results,hpolls]
  · obtain ha | ha := List.mem_append.mp ((List.mem_cons.mp ha).resolve_left nofun)
    · exact nomatch (h _ ha).choose_spec
    · exact ha

theorem around_nothing (f : SeeCmdFun) (t : List CmdEvent) :
    let t' : List CmdEvent := .act (.call f) :: (t ++ [.act .dsbIshst])
    written t' = written t ∧ calls t' = f :: calls t ∧ dataReads t' = dataReads t ∧
      responses t' = responses t ∧ results t' = results t ∧
      ∀ a, a ≠ .call f → a ≠ .dsbIshst → .act a ∈ t' → .act a ∈ t := by
  intro t'
  refine ⟨?_,?_,?_,?_,?_,fun a hf hdsb ha => ?_⟩
  · simp [t',written]
  · simp [t',calls]
  · simp [t',dataReads]
  · simp [t',responses]
  · simp [t',results]
  · simpa [t',hf,hdsb] using ha

theorem seeCmdInvoke_events (k : Crypto) (s : Answers CmdField.Value) :
    ((seeCmdInvoke k).exec s).events =
      .write .response .undefined :: ((invokeFrom k seeCmd).exec s).events := rfl

theorem noHandler_robust (k : Crypto) (hpolls : ∀ e ∈ polls, Polls e)
    (hlen : polls.length ≤ 3) : CmdRobust k (.write .response .undefined :: (polls ++ [])) := by
  obtain ⟨hw,hc,hd,ha,hr,hact⟩ := prelude_nothing hpolls []
  refine ⟨?_,?_,?_,?_,?_,?_,?_⟩
  · simp only [List.length_cons,List.append_nil]
    omega
  · rw [hc]
    exact Nat.zero_le 1
  · rw [hw]
    exact List.forall_mem_singleton.mpr trivial
  · exact fun x hx => nomatch hact _ hx
  · exact fun p hp => nomatch hact _ hp
  · exact ⟨.undefined,by rw [ha]; rfl,.inl rfl⟩
  · refine ⟨fun _ => 0,fun i v hv => ?_,?_⟩
    · rw [hd] at hv
      exact nomatch hv
    · rw [hr,hc]
      rfl

theorem handler_robust (k : Crypto) (f : SeeCmdFun) (s : Answers CmdField.Value)
    (hpolls : ∀ e ∈ polls, Polls e) (hlen : polls.length ≤ 3) :
    CmdRobust k (.write .response .undefined ::
      (polls ++ .act (.call f) :: (((f.code k).exec s).events ++ [.act .dsbIshst]))) := by
  have h := code_robust k f s
  obtain ⟨c,_,hevents,hreads⟩ := exec_snapshot (code_readsOnce k f) s (s 0)
  have hresults := code_results k f c
  rw [hevents] at hresults
  generalize ((f.code k).exec s).events = t at h hreads hresults ⊢
  obtain ⟨hw,hc,hd,ha,hr,hact⟩ := prelude_nothing hpolls (.act (.call f) :: (t ++ [.act .dsbIshst]))
  obtain ⟨hw',hc',hd',ha',hr',hact'⟩ := around_nothing f t
  rw [hw'] at hw
  rw [hc',h.noHandler] at hc
  rw [hd'] at hd
  rw [ha'] at ha
  rw [hr'] at hr
  refine ⟨?_,?_,?_,?_,?_,?_,?_⟩
  · have hbounded := h.bounded
    simp only [List.length_cons,List.length_append,List.length_nil]
    omega
  · rw [hc]
    exact Nat.le_refl 1
  · rw [hw]
    exact List.forall_mem_cons.mpr ⟨trivial,h.writes⟩
  · intro x hx
    rw [hd]
    exact h.wraps x (hact' _ nofun nofun (hact _ hx))
  · intro p hp
    rw [hd]
    exact h.unwraps p (hact' _ nofun nofun (hact _ hp))
  · rw [ha]
    cases h.answers with
    | inl hwrong => exact ⟨.wrongArgs,by rw [hwrong]; rfl,.inr (.inl rfl)⟩
    | inr hsuccess => exact ⟨.success,by rw [hsuccess]; rfl,.inr (.inr rfl)⟩
  · refine ⟨fun i => c (.data i),fun i v hv => ?_,?_⟩
    · rw [hd] at hv
      exact hreads _ v (read_of_dataReads hv)
    · rw [hr,hc,List.flatMap_singleton,hresults]

/-- No run of see_cmd_invoke does harm, whatever the other side makes its reads return. It may
also leave the buffer alone. -/
theorem see_cmd_invoke_robust (k : Crypto) :
    (∀ s, CmdRobust k ((seeCmdInvoke k).exec s).events) ∧
      ∀ c, CmdRobust k ((seeCmdInvoke k).run c).events := by
  have hexec : ∀ s, CmdRobust k ((seeCmdInvoke k).exec s).events := by
    intro s
    obtain ⟨polls,hpolls,hlen,hnone | ⟨f,s',hcall⟩⟩ := invokeFrom_events k seeCmd s
    · rw [seeCmdInvoke_events,hnone,← List.append_nil polls]
      exact noHandler_robust k hpolls hlen
    · rw [seeCmdInvoke_events,hcall]
      exact handler_robust k f s' hpolls hlen
  refine ⟨hexec,fun c => ?_⟩
  obtain ⟨s,_,hs⟩ := run_exec (seeCmdInvoke k) c
  rw [← hs]
  exact hexec s

end Invoke

end Arm64

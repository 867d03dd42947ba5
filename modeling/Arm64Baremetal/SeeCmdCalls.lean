import Arm64Baremetal.SeeCommand
import Arm64Baremetal.SeeCrypto

/-!
What the commands answer in a buffer that the non-secure side leaves alone during the call,
and what the SMC functions of seeos_servicer answer to the same arguments.
-/

set_option autoImplicit false

namespace Arm64
open Aes (Block)
open ForeignMemory (run_bind run_get)

section Calls
variable (k : Crypto)

theorem invokeFrom_run (entries : List SeeCmdEntry) (c : SeeCmd) :
    let r := (invokeFrom k entries).run c
    match entries.find? fun e => e.commandId = c .command with
    | none => r.mem = c ∧ written r.events = []
    | some e => r.mem = ((e.seeCmdFun.code k).run c).mem ∧
        written r.events = written ((e.seeCmdFun.code k).run c).events := by
  induction entries with
  | nil => exact ⟨rfl,rfl⟩
  | cons e entries ih =>
    unfold invokeFrom
    rw [run_get]
    by_cases hc : c .command = e.commandId
    · have hfind : (decide (e.commandId = c .command)) = true := decide_eq_true hc.symm
      simp only [List.find?_cons,hfind,if_pos hc,run_bind]
      exact ⟨rfl,(around_nothing e.seeCmdFun _).1⟩
    · have hfind : (decide (e.commandId = c .command)) = false :=
        decide_eq_false fun h => hc h.symm
      simp only [List.find?_cons,hfind,if_neg hc]
      exact ih

theorem find_seeCmd (f : SeeCmdFun) :
    ∃ e, (seeCmd.find? fun e => e.commandId = f.id) = some e ∧ e.seeCmdFun = f := by
  cases f <;> exact ⟨_,rfl,rfl⟩

/-- A command does what its handler does after the response CMD_UNDEFINED. -/
theorem seeCmdInvoke_run {f : SeeCmdFun} {c : SeeCmd} (hc : c .command = f.id) :
    let r := (seeCmdInvoke k).run c
    let r' := (f.code k).run (Function.update c .response .undefined)
    r.mem = r'.mem ∧ written r.events = .response :: written r'.events := by
  have hloop := invokeFrom_run k seeCmd (Function.update c .response .undefined)
  obtain ⟨e,hfind,rfl⟩ := find_seeCmd f
  have hcommand : (Function.update c .response .undefined : SeeCmd) .command = e.seeCmdFun.id := hc
  simp only [hcommand,hfind] at hloop
  exact ⟨hloop.1,congrArg (List.cons _) hloop.2⟩

theorem seeCmdWrapKey_run (c : SeeCmd) (hx : c (.data 0) ≠ (0 : Word)) :
    let r := (seeCmdWrapKey k).run c
    r.mem .response = .success ∧ r.mem (.result 0) = (k.wrapKey (c (.data 0))).1 ∧
      r.mem (.result 1) = (k.wrapKey (c (.data 0))).2 ∧
      written r.events = [.result 0,.result 1,.response] := by
  simp only [seeCmdWrapKey,run_get,if_neg hx]
  exact ⟨rfl,rfl,rfl,rfl⟩

theorem seeCmdWrapKey_zero (c : SeeCmd) (hx : c (.data 0) = (0 : Word)) :
    ((seeCmdWrapKey k).run c).mem .response = .wrongArgs := by
  simp only [seeCmdWrapKey,run_get,if_pos hx]
  rfl

theorem seeCmdUnwrapKey_run (c : SeeCmd)
    (hx : ¬ (c (.data 0) = (0 : Word) ∨ c (.data 1) = (0 : Word))) :
    let r := (seeCmdUnwrapKey k).run c
    r.mem .response = .success ∧ r.mem (.result 0) = k.unwrapKey (c (.data 0),c (.data 1)) ∧
      written r.events = [.result 0,.response] := by
  simp only [seeCmdUnwrapKey,run_get,if_neg hx]
  exact ⟨rfl,rfl,rfl⟩

theorem seeCmdUnwrapKey_zero (c : SeeCmd)
    (hx : c (.data 0) = (0 : Word) ∨ c (.data 1) = (0 : Word)) :
    ((seeCmdUnwrapKey k).run c).mem .response = .wrongArgs := by
  simp only [seeCmdUnwrapKey,run_get,if_pos hx]
  rfl

end Calls

/-- `master_key` -/
def seeMasterKey : Block := fun i =>
  [0x02,0x04,0xA2,0xA4,0x0A,0x5B,0x0D,0x00,0x53,0x5A,0x0F,0xC3,0xE2,0x12,0x0D,0xFF].getD i.val 0

def emptyCmd : SeeCmd
  | .command => 0
  | .data _ | .result _ => (0 : Word)
  | .response => .empty

section RoundTrip
variable {x y : Word}

theorem issueCmd_eq (k : Crypto) (c : SeeCmd) (f : SeeCmdFun) (x y : Word) :
    issueCmd k c f x y =
      ((f.code k).run (Function.update (fillCmd c f x y) .response .undefined)).mem :=
  (seeCmdInvoke_run k rfl).1

theorem issueCmd_wrapKey (k : Crypto) (c : SeeCmd) (y : Word) (hx : x ≠ 0) :
    let c' := issueCmd k c .wrapKey x y
    c' .response = .success ∧ c' (.result 0) = (k.wrapKey x).1 ∧
      c' (.result 1) = (k.wrapKey x).2 := by
  rw [issueCmd_eq]
  obtain ⟨hr,h0,h1,_⟩ := seeCmdWrapKey_run k
    (Function.update (fillCmd c .wrapKey x y) .response .undefined) hx
  exact ⟨hr,h0,h1⟩

theorem issueCmd_unwrapKey (k : Crypto) (c : SeeCmd) (hxy : ¬ (x = 0 ∨ y = 0)) :
    let c' := issueCmd k c .unwrapKey x y
    c' .response = .success ∧ c' (.result 0) = k.unwrapKey (x,y) := by
  rw [issueCmd_eq]
  obtain ⟨hr,h0,_⟩ := seeCmdUnwrapKey_run k
    (Function.update (fillCmd c .unwrapKey x y) .response .undefined) hxy
  exact ⟨hr,h0⟩

theorem issueCmd_unwrapKey_zero (k : Crypto) (c : SeeCmd) (hxy : x = 0 ∨ y = 0) :
    issueCmd k c .unwrapKey x y .response = .wrongArgs := by
  rw [issueCmd_eq]
  exact seeCmdUnwrapKey_zero k
    (Function.update (fillCmd c .unwrapKey x y) .response .undefined) hxy

theorem issueCmd_unwrapKey_rejects (k : Crypto) (c : SeeCmd) :
    issueCmd k c .unwrapKey x y .response ≠ .success ↔ x = 0 ∨ y = 0 := by
  constructor
  · intro hrejected
    by_contra hnonzero
    exact hrejected (issueCmd_unwrapKey k c hnonzero).1
  · intro hzero
    rw [issueCmd_unwrapKey_zero k c hzero]
    decide

/-- The command rejects a wrapped key with a zero word, which the SMC function unwraps. -/
theorem survives_commands_iff (k : Crypto) (hk : ∀ key, k.unwrapKey (k.wrapKey key) = key)
    (c : SeeCmd) (key y : Word) (h0 : key ≠ 0) :
    SurvivesCommands k c key y ↔ (k.wrapKey key).1 ≠ 0 ∧ (k.wrapKey key).2 ≠ 0 := by
  obtain ⟨hsuccess,hfirst,hsecond⟩ := issueCmd_wrapKey k c y h0
  unfold SurvivesCommands
  dsimp only
  rw [hfirst,hsecond,← not_or]
  constructor
  · rintro ⟨_,hunwrapped,_⟩ hzero
    rw [issueCmd_unwrapKey_zero k _ hzero] at hunwrapped
    exact nomatch hunwrapped
  · intro hnonzero
    obtain ⟨hunwrapped,hkey⟩ := issueCmd_unwrapKey k (issueCmd k c .wrapKey key y) hnonzero
    exact ⟨hsuccess,hunwrapped,hkey.trans (hk key)⟩

/-- With the cipher of see_crypto.c, whose unwrapping undoes its wrapping. -/
theorem survives_commands_iff_aes :
    let k := seeCrypto seeMasterKey fun _ => 0
    SurvivesCommands k emptyCmd 1 0 ↔ (k.wrapKey 1).1 ≠ 0 ∧ (k.wrapKey 1).2 ≠ 0 :=
  survives_commands_iff (seeCrypto seeMasterKey fun _ => 0)
    (seeUnwrapKey_seeWrapKey seeMasterKey fun _ => 0) emptyCmd 1 0 (by decide)

/-- A cipher that puts a zero word in the wrapped key of 1. -/
def zeroWordCrypto : Crypto := ⟨fun key => (key ^^^ 1,1),fun blob => blob.1 ^^^ 1⟩

theorem key_lost_in_commands :
    (∀ key, zeroWordCrypto.unwrapKey (zeroWordCrypto.wrapKey key) = key) ∧
      (1 : Word) ≠ 0 ∧ ¬ SurvivesCommands zeroWordCrypto emptyCmd 1 0 := by
  refine ⟨fun key => ?_,by decide,fun h => absurd h.2.1 (by decide)⟩
  change key ^^^ 1 ^^^ 1 = key
  rw [BitVec.xor_assoc,BitVec.xor_self,BitVec.xor_zero]

end RoundTrip

section Forged

/-- A blob that see_wrap_key does not return for any key. -/
def Forged (keys : Keys) (blob : Word × Word) : Prop := ∀ plainKey, seeWrapKey keys plainKey ≠ blob

/-- The decryption of a forged blob does not have the constant in its second lane. -/
theorem forged_iff (masterKey : Block) (rawKeys : Nat → BitVec 32) (blob : Word × Word) :
    let keys := seeInitCrypto masterKey rawKeys
    Forged keys blob ↔
      lane (Aes.decrypt keys.decryptionKeys 9 (loadBlock blob)) 8 ≠ 0xFAEFA0A0A053FE00 := by
  intro keys
  have hkeys : Aes.InverseKeys keys.encryptionKeys keys.decryptionKeys 9 :=
    seeInitCrypto_inverse masterKey rawKeys
  constructor
  · intro hforged hlane
    refine hforged (lane (Aes.decrypt keys.decryptionKeys 9 (loadBlock blob)) 0) ?_
    have hplain : loadBlock (lane (Aes.decrypt keys.decryptionKeys 9 (loadBlock blob)) 0,
        0xFAEFA0A0A053FE00) = Aes.decrypt keys.decryptionKeys 9 (loadBlock blob) := by
      rw [← hlane]
      exact loadBlock_storeBlock _
    rw [← storeBlock_loadBlock (seeWrapKey keys _),loadBlock_seeWrapKey,hplain,
      Aes.encrypt_decrypt hkeys,storeBlock_loadBlock]
  · rintro hlane plainKey rfl
    refine hlane ?_
    rw [loadBlock_seeWrapKey,Aes.decrypt_encrypt hkeys,lane_loadBlock_high]

/-- see_unwrap_key never looks at the constant: the command rejects only blobs with a zero word. -/
theorem forged_rejected_iff (masterKey : Block) (rawKeys : Nat → BitVec 32) (c : SeeCmd)
    (blob : Word × Word) :
    let keys := seeInitCrypto masterKey rawKeys
    let answer := issueCmd (seeCrypto masterKey rawKeys) c .unwrapKey blob.1 blob.2 .response
    (Forged keys blob ↔
      lane (Aes.decrypt keys.decryptionKeys 9 (loadBlock blob)) 8 ≠ 0xFAEFA0A0A053FE00) ∧
    ((Forged keys blob → answer ≠ .success) ↔ (Forged keys blob → blob.1 = 0 ∨ blob.2 = 0)) := by
  intro keys answer
  refine ⟨forged_iff masterKey rawKeys blob,imp_congr_right fun _ => ?_⟩
  exact issueCmd_unwrapKey_rejects _ c

theorem forged_ones : Forged (seeInitCrypto seeMasterKey fun _ => 0) (1,1) := by
  refine (forged_iff _ _ _).mpr fun h => ?_
  have hbyte := congrArg (·.extractLsb' (8 * 0) 8) h
  rw [lane_extract _ _ (by decide),Aes.decrypt,Aes.decRounds_shared] at hbyte
  revert hbyte
  decide +kernel

theorem forged_accepted :
    let keys := seeInitCrypto seeMasterKey fun _ => 0
    Forged keys (1,1) ∧
      issueCmd (seeCrypto seeMasterKey fun _ => 0) emptyCmd .unwrapKey 1 1 .response = .success :=
  ⟨forged_ones,(issueCmd_unwrapKey _ emptyCmd (by decide)).1⟩

end Forged

section Interfaces

theorem interfacesAgree_iff (k : Crypto) (f : SeeCmdFun) (c : SeeCmd) :
    InterfacesAgree k f c ↔
      let c' : SeeCmd := Function.update (Function.update c .command f.id) .response .undefined
      let r := (f.code k).run c'
      let reply := seeosServicer k ⟨f.functionId,c (.data 0),c (.data 1),c (.data 2)⟩
      r.mem .response = .success →
        ∀ i, .result i ∈ written r.events → r.mem (.result i) = reply.result i := by
  have hcommand : (Function.update c .command f.id : SeeCmd) .command = f.id :=
    Function.update_self ..
  obtain ⟨hmem,hwritten⟩ := seeCmdInvoke_run k hcommand
  unfold InterfacesAgree
  simp only [hmem,hwritten,List.mem_cons,reduceCtorEq,false_or]

theorem version_disagrees (k : Crypto) (c : SeeCmd) : ¬ InterfacesAgree k .version c := by
  rw [interfacesAgree_iff]
  intro h
  have hword : seeosVersion = (1 <<< 8) ||| 20 := h rfl 0 (.head _)
  exact absurd hword (by decide)

theorem wrapKey_agrees (k : Crypto) (c : SeeCmd) : InterfacesAgree k .wrapKey c := by
  rw [interfacesAgree_iff]
  intro c' r reply hsuccess i hi
  by_cases hx : c' (.data 0) = (0 : Word)
  · rw [show r.mem .response = _ from seeCmdWrapKey_zero k c' hx] at hsuccess
    exact nomatch hsuccess
  · obtain ⟨_,h0,h1,hwritten⟩ := seeCmdWrapKey_run k c' hx
    rw [show written r.events = _ from hwritten] at hi
    have hi : i = 0 ∨ i = 1 := by simpa using hi
    obtain rfl | rfl := hi
    · exact h0
    · exact h1

theorem unwrapKey_agrees (k : Crypto) (c : SeeCmd) : InterfacesAgree k .unwrapKey c := by
  rw [interfacesAgree_iff]
  intro c' r reply hsuccess i hi
  by_cases hxy : c' (.data 0) = (0 : Word) ∨ c' (.data 1) = (0 : Word)
  · rw [show r.mem .response = _ from seeCmdUnwrapKey_zero k c' hxy] at hsuccess
    exact nomatch hsuccess
  · obtain ⟨_,h0,hwritten⟩ := seeCmdUnwrapKey_run k c' hxy
    rw [show written r.events = _ from hwritten] at hi
    obtain rfl : i = 0 := by simpa using hi
    exact h0

/-- SEE_CMD_VERSION answers the id of SEEOS_VERSION, not the version. -/
theorem interfaces_agree_iff (k : Crypto) (f : SeeCmdFun) (c : SeeCmd) :
    InterfacesAgree k f c ↔ f ≠ .version := by
  cases f with
  | version => exact iff_of_false (version_disagrees k c) fun h => h rfl
  | wrapKey => exact iff_of_true (wrapKey_agrees k c) nofun
  | unwrapKey => exact iff_of_true (unwrapKey_agrees k c) nofun

theorem versions_differ :
    let k := seeCrypto seeMasterKey fun _ => 0
    let r := (seeCmdInvoke k).run (Function.update emptyCmd .command SeeCmdFun.version.id)
    r.mem .response = .success ∧ r.mem (.result 0) = (0x10000010 : Word) ∧
      (seeosServicer k ⟨seeosVersion,0,0,0⟩).r1 = 0x114 ∧ ¬ InterfacesAgree k .version emptyCmd :=
  ⟨rfl,rfl,rfl,version_disagrees _ emptyCmd⟩

end Interfaces

end Arm64
